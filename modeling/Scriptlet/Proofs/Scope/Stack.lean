import Mathlib.Data.List.Basic
import Mathlib.Data.List.Nodup
import Mathlib.Data.List.Dedup
import Scriptlet.Scope.Arena

/-!
# Scopes as a stack

A machine opens and closes its scopes in the manner of a stack, so the arena of slots stands for a
plain list of variables, the innermost scope first. This module says what the operations on
variables do to such a list, and proves that the arena does exactly that.

The bridge is `Arena.Stacked a ids scopes`: following the parent links from the first of `ids`
visits just `ids`, these are **all** scopes of the arena, and they hold the variables in `scopes`.
It is kept by every operation that opens a scope inside the first one, closes the first one, or
works on variables from one of them outward (`Arena.Stacked.YieldsFrom`); nothing is said about
handles of vacant slots.
-/

namespace Scriptlet

/-- The variables of one scope, in order of declaration. -/
abbrev Vars := List (String × Var)

/-- The variables of nested scopes, the innermost first. -/
abbrev Scopes := List Vars

/-! ### Operations on a stack of scopes -/

/-- Writes a value at the first binding of a name. The place of the binding and its type stay. -/
def Vars.write (name : String) (w : Value) (vars : Vars) : Vars :=
  vars.modify (vars.findIdx fun b ↦ b.1 == name) fun b ↦ (b.1, { b.2 with value := w })

/-- The first binding of the name is written to; if it is not the one at the head, it is behind
it. -/
theorem Vars.write_cons (name : String) (w : Value) (b : String × Var) (vars : Vars) :
    Vars.write name w (b :: vars) =
      if b.1 == name then (b.1, { b.2 with value := w }) :: vars
      else b :: Vars.write name w vars := by
  rw [write, List.findIdx_cons]
  cases b.1 == name <;> rfl

/-- A scope in the arena is written to as the stack has it. -/
theorem Scope.replaceIn_eq_write (name : String) (w : Value) :
    Scope.replaceIn name w = Vars.write name w := by
  funext vars
  induction vars with
  | nil => rfl
  | cons b vars ih => rw [replaceIn, Vars.write_cons, ih]

namespace Scopes

/-- The variable that a name means: that of the first scope that binds it. -/
def var? (scopes : Scopes) (name : String) : Option Var :=
  scopes.findSome? (·.lookup name)

/-- The value of a name in the first scope that binds it. -/
def get (scopes : Scopes) (name : String) : Except ScopeError Value :=
  match scopes.var? name with
  | some var => .ok var.value
  | none => .error (.unknown name)

/-- Changes the first scope that binds a name. -/
def change (name : String) (f : Vars → Vars) : Scopes → Scopes
  | [] => []
  | vars :: scopes =>
    if (vars.lookup name).isSome then f vars :: scopes else vars :: change name f scopes

/-- Declares a name in the innermost scope, after coercing its value. -/
def declare (scopes : Scopes) (name : String) (type : Tag) (v : Value) :
    Except ScopeError Scopes :=
  match v.coerce type with
  | .error e => .error (.value e)
  | .ok w =>
    match scopes with
    | [] => .error (.unknown name)
    | vars :: rest =>
      if (vars.lookup name).isSome then .error (.alreadyDeclared name)
      else .ok ((vars ++ [(name, ⟨type, w⟩)]) :: rest)

/-- Replaces the value of a name by what `f` makes of it, in the first scope that binds it. -/
def update (scopes : Scopes) (name : String) (f : Value → Except ValueError Value) :
    Except ScopeError Scopes :=
  match scopes.var? name with
  | none => .error (.unknown name)
  | some var =>
    match f var.value with
    | .error e => .error (.value e)
    | .ok w => .ok (scopes.change name (Vars.write name w))

/-- Sets a name in the first scope that binds it, coercing to the type declared there. -/
def set (scopes : Scopes) (name : String) (v : Value) : Except ScopeError Scopes :=
  match scopes.var? name with
  | none => .error (.unknown name)
  | some var =>
    match v.coerce var.type with
    | .error e => .error (.value e)
    | .ok w => .ok (scopes.change name (Vars.write name w))

/-- Sets a name in the first scope that binds it, coercing to the type declared there, and else
declares it for any value in the innermost scope. -/
def assign (scopes : Scopes) (name : String) (v : Value) : Except ScopeError Scopes :=
  match scopes.var? name with
  | none => scopes.declare name .auto v
  | some var =>
    match v.coerce var.type with
    | .error e => .error (.value e)
    | .ok w => .ok (scopes.change name (Vars.write name w))

/-- Removes a name from the first scope that binds it. -/
def unset (scopes : Scopes) (name : String) : Scopes :=
  scopes.change name (·.eraseP fun b ↦ b.1 == name)

theorem assign_of_var?_eq_none {scopes : Scopes} {name : String} (v : Value)
    (h : scopes.var? name = none) : scopes.assign name v = scopes.declare name .auto v := by
  rw [assign, h]

theorem assign_of_var?_eq_some {scopes : Scopes} {name : String} {var : Var} (v : Value)
    (h : scopes.var? name = some var) : scopes.assign name v = scopes.set name v := by
  rw [assign, set, h]

/-- Changing a name that is bound nowhere changes nothing. -/
theorem change_of_var?_eq_none {scopes : Scopes} {name : String} (f : Vars → Vars)
    (h : scopes.var? name = none) : scopes.change name f = scopes := by
  induction scopes with
  | nil => rfl
  | cons vars scopes ih =>
    rcases hv : vars.lookup name with - | var
    · rw [change, hv, ih (by simpa [var?, hv] using h)]
      simp
    · simp [var?, hv] at h

/-- A change keeps the number of scopes. -/
@[simp]
theorem length_change (name : String) (f : Vars → Vars) (scopes : Scopes) :
    (scopes.change name f).length = scopes.length := by
  induction scopes with
  | nil => rfl
  | cons vars scopes ih =>
    rw [change]
    split
    · rfl
    · rw [List.length_cons, ih, List.length_cons]

end Scopes

namespace Arena

/-! ### Slots after an update -/

/-- A slot that is written to is read back, and the others are as before. -/
theorem scope?_setIfInBounds (a : Arena) (free : List ScopeId) (id other : ScopeId)
    (s : Option Scope) :
    (⟨a.slots.setIfInBounds id s, free⟩ : Arena).scope? other =
      if id = other ∧ id < a.slots.size then s else a.scope? other := by
  unfold scope?
  rw [Array.getElem?_setIfInBounds]
  by_cases h : id = other
  · subst h
    by_cases hlt : id < a.slots.size <;> simp [hlt]
  · simp [h]

/-- A scope is in one of the slots. -/
theorem lt_size_of_scope? {a : Arena} {id : ScopeId} {s : Scope} (h : a.scope? id = some s) :
    id < a.slots.size := by
  rcases Nat.lt_or_ge id a.slots.size with hlt | hge
  · exact hlt
  · simp [scope?, Array.getElem?_eq_none hge] at h

/-! ### Chains -/

/-- Each of these scopes has the next one as its parent, the last one has none, and they hold these
variables. -/
inductive Chain (a : Arena) : List ScopeId → Scopes → Prop where
  | nil : Chain a [] []
  | cons {id : ScopeId} {ids : List ScopeId} {vars : Vars} {scopes : Scopes}
      (h : a.scope? id = some ⟨vars, ids.head?⟩) (rest : Chain a ids scopes) :
      Chain a (id :: ids) (vars :: scopes)

namespace Chain

variable {a b : Arena} {ids : List ScopeId} {scopes : Scopes}

theorem length_eq (h : a.Chain ids scopes) : ids.length = scopes.length := by
  induction h with
  | nil => rfl
  | cons _ _ ih => rw [List.length_cons, List.length_cons, ih]

/-- Every scope on a chain is there. -/
theorem isSome_of_mem (h : a.Chain ids scopes) {id : ScopeId} (hid : id ∈ ids) :
    (a.scope? id).isSome := by
  induction h with
  | nil => cases hid
  | cons h _ ih =>
    rcases List.mem_cons.1 hid with rfl | hid
    · rw [h]
      rfl
    · exact ih hid

/-- A chain is a matter of its own slots only. -/
theorem congr (h : a.Chain ids scopes) (hab : ∀ id ∈ ids, b.scope? id = a.scope? id) :
    b.Chain ids scopes := by
  induction h with
  | nil => exact .nil
  | cons h _ ih =>
    refine .cons (by rw [hab _ (by simp), h]) (ih fun id hid ↦ hab id ?_)
    exact List.mem_cons_of_mem _ hid

/-- The scopes around a scope on a chain are a chain. -/
theorem of_append_append {before : List ScopeId} {front : Scopes}
    (h : a.Chain (before ++ ids) (front ++ scopes)) (hlen : before.length = front.length) :
    a.Chain ids scopes := by
  induction before generalizing front with
  | nil =>
    obtain rfl : front = [] := List.eq_nil_of_length_eq_zero hlen.symm
    exact h
  | cons id before ih =>
    rcases front with - | ⟨vars, front⟩
    · cases hlen
    cases h with
    | cons _ rest => exact ih rest (by simpa using hlen)

/-- A scope on a chain may be given other variables. -/
theorem store {before after : List ScopeId} {owner : ScopeId} {front back : Scopes}
    {vars : Vars} {s : Scope} (vars' : Vars) (hn : (before ++ owner :: after).Nodup)
    (hlen : before.length = front.length) (hs : a.scope? owner = some s)
    (h : a.Chain (before ++ owner :: after) (front ++ vars :: back)) :
    (a.store owner { s with vars := vars' }).Chain (before ++ owner :: after)
      (front ++ vars' :: back) := by
  have hlt := lt_size_of_scope? hs
  -- Only the slot of the owner is written to.
  have hother : ∀ id, owner ≠ id →
      (a.store owner { s with vars := vars' }).scope? id = a.scope? id := by
    intro id hne
    simp [Arena.store, scope?_setIfInBounds, hne]
  -- The induction is on the scopes inside the owner, which keep their slots.
  induction before generalizing front with
  | nil =>
    obtain rfl : front = [] := List.eq_nil_of_length_eq_zero hlen.symm
    cases h with
    | cons h rest =>
      obtain rfl := Option.some.inj (hs.symm.trans h)
      refine .cons (by simp [Arena.store, scope?_setIfInBounds, hlt]) (rest.congr fun id hid ↦ ?_)
      exact hother id fun he ↦ (List.nodup_cons.1 hn).1 (he ▸ hid)
  | cons id before ih =>
    rcases front with - | ⟨vars₀, front⟩
    · simp at hlen
    cases h with
    | cons h rest =>
      have hne : owner ≠ id := by
        rintro rfl
        exact (List.nodup_cons.1 hn).1 (by simp)
      have hrest := ih (List.nodup_cons.1 hn).2 (by simpa using hlen) rest
      exact .cons (by rw [hother id hne, h]) hrest

/-- A search from the start of a chain finds nothing if no scope binds the name. -/
theorem searchFrom_eq_none {id : ScopeId} {name : String} (bound : Nat)
    (h : a.Chain (id :: ids) scopes) (hv : scopes.var? name = none) :
    a.searchFrom name bound id = none := by
  induction bound generalizing id ids scopes with
  | zero => rfl
  | succ bound ih =>
    cases h with
    | @cons _ _ vars scopes h rest =>
      have hl : vars.lookup name = none := by
        rcases hl : vars.lookup name with - | var
        · rfl
        · simp [Scopes.var?, hl] at hv
      rw [searchFrom, h]
      rcases ids with - | ⟨parent, ids⟩
      · simp [Scope.binds, Scope.find?, hl]
      · simpa [Scope.binds, Scope.find?, hl] using ih rest (by simpa [Scopes.var?, hl] using hv)

/-- A search from the start of a chain finds the first scope that binds the name. -/
theorem exists_searchFrom_eq_some {id : ScopeId} {name : String} {bound : Nat} {var : Var}
    (h : a.Chain (id :: ids) scopes) (hb : ids.length < bound) (hv : scopes.var? name = some var) :
    ∃ before owner after front back s, id :: ids = before ++ owner :: after ∧
      scopes = front ++ s.vars :: back ∧ before.length = front.length ∧
      a.searchFrom name bound id = some owner ∧ a.scope? owner = some s ∧
      s.find? name = some var ∧ ∀ f, scopes.change name f = front ++ f s.vars :: back := by
  -- The search goes outward until a scope binds the name, and takes one of the bound for each
  -- scope.
  induction bound generalizing id ids scopes with
  | zero => cases hb
  | succ bound ih =>
    cases h with
    | @cons _ _ vars scopes h rest =>
      rcases hl : vars.lookup name with - | var'
      · rcases ids with - | ⟨parent, ids⟩
        · cases rest
          simp [Scopes.var?, hl] at hv
        obtain ⟨before, owner, after, front, back, s, hids, rfl, hlen, hs, ho, hf, hc⟩ :=
          ih rest (by simpa using hb) (by simpa [Scopes.var?, hl] using hv)
        refine ⟨id :: before, owner, after, vars :: front, back, s, by rw [hids]; rfl, rfl,
          by simp [hlen], ?_, ho, hf, fun f ↦ by simp [Scopes.change, hl, hc f]⟩
        simpa [searchFrom, h, Scope.binds, Scope.find?, hl] using hs
      · obtain rfl : var' = var := by simpa [Scopes.var?, hl] using hv
        exact ⟨[], id, ids, [], scopes, ⟨vars, ids.head?⟩, rfl, rfl, rfl,
          by simp [searchFrom, h, Scope.binds, Scope.find?, hl], h, hl,
          fun f ↦ by simp [Scopes.change, hl]⟩

end Chain

/-! ### An arena that is a stack -/

/-- The scopes of an arena are those of one chain, which ends at the global scope, and its vacant
slots are those in the list of free ones. -/
structure Stacked (a : Arena) (ids : List ScopeId) (scopes : Scopes) : Prop where
  chain : a.Chain ids scopes
  nodup : ids.Nodup
  last : ids.getLast? = some global
  mem_of_isSome : ∀ {id}, (a.scope? id).isSome → id ∈ ids
  free_nodup : a.free.Nodup
  mem_free_iff : ∀ {id}, id ∈ a.free ↔ id < a.slots.size ∧ a.scope? id = none

namespace Stacked

variable {a : Arena} {id parent : ScopeId} {ids : List ScopeId} {vars : Vars} {scopes : Scopes}

/-- The innermost scope holds the first variables, and has the next scope as its parent. -/
theorem exists_eq_cons (h : a.Stacked (id :: ids) scopes) :
    ∃ vars rest, scopes = vars :: rest ∧ a.scope? id = some ⟨vars, ids.head?⟩ := by
  cases h.chain with
  | cons hs _ => exact ⟨_, _, rfl, hs⟩

/-- The slots that are taken are those of the chain. -/
theorem isSome_iff (h : a.Stacked ids scopes) : (a.scope? id).isSome ↔ id ∈ ids :=
  ⟨h.mem_of_isSome, h.chain.isSome_of_mem⟩

theorem lt_size (h : a.Stacked ids scopes) (hid : id ∈ ids) : id < a.slots.size := by
  obtain ⟨s, hs⟩ := Option.isSome_iff_exists.1 (h.isSome_iff.2 hid)
  exact lt_size_of_scope? hs

/-- The slots of a stacked arena are those of its chain and the free ones. -/
theorem perm_range (h : a.Stacked ids scopes) :
    (ids ++ a.free).Perm (List.range a.slots.size) := by
  have hdisj : ids.Disjoint a.free := by
    intro id hid hfree
    have hsome := h.isSome_iff.2 hid
    rw [(h.mem_free_iff.1 hfree).2] at hsome
    cases hsome
  refine (List.perm_ext_iff_of_nodup (h.nodup.append h.free_nodup hdisj) List.nodup_range).2 ?_
  intro id
  rw [List.mem_append, List.mem_range]
  constructor
  · rintro (hid | hid)
    · exact h.lt_size hid
    · exact (h.mem_free_iff.1 hid).1
  · intro hlt
    rcases hs : a.scope? id with - | s
    · exact .inr (h.mem_free_iff.2 ⟨hlt, hs⟩)
    · exact .inl (h.mem_of_isSome (by rw [hs]; rfl))

/-- **As many scopes live as the chain is long.** -/
theorem live_eq (h : a.Stacked ids scopes) : a.live = ids.length := by
  have hlen := h.perm_range.length_eq
  rw [List.length_append, List.length_range] at hlen
  rw [live]
  omega

/-- There are no more scopes on the chain than slots. -/
theorem length_le_size (h : a.Stacked ids scopes) : ids.length ≤ a.slots.size := by
  have hlen := h.perm_range.length_eq
  rw [List.length_append, List.length_range] at hlen
  omega

theorem new : Arena.new.Stacked [global] [[]] where
  chain := .cons rfl .nil
  nodup := List.nodup_singleton _
  last := rfl
  mem_of_isSome := by
    intro id hid
    rcases id with - | id
    · simp [global]
    · simp [Arena.new, scope?] at hid
  free_nodup := List.nodup_nil
  mem_free_iff := by
    intro id
    rcases id with - | id <;> simp [Arena.new, scope?]

/-- The global scope is the last of the stack. -/
theorem snapshot_global (h : a.Stacked ids scopes) :
    a.snapshot global = (scopes.getLast?.getD []).map fun b ↦ (b.1, b.2.value) := by
  have hlast := h.last
  have hchain := h.chain
  clear h
  induction hchain with
  | nil => cases hlast
  | @cons id ids vars scopes hs rest ih =>
    rcases ids with - | ⟨next, ids⟩
    · obtain rfl : id = global := by simpa using hlast
      cases rest
      rw [snapshot, hs]
      rfl
    · obtain ⟨vars', scopes', rfl⟩ : ∃ vars' scopes', scopes = vars' :: scopes' := by
        cases rest
        exact ⟨_, _, rfl⟩
      rw [List.getLast?_cons_cons] at hlast ⊢
      exact ih hlast

/-! ### Opening and closing scopes -/

/-- Opening a scope inside the first one puts an empty scope in front. -/
theorem push (h : a.Stacked (parent :: ids) scopes) :
    (a.push parent).2.Stacked ((a.push parent).1 :: parent :: ids) ([] :: scopes) := by
  -- Wherever the new scope is put, it must be a vacant slot, taken from the free ones.
  have hopen : ∀ (b : Arena) (id : ScopeId), a.scope? id = none →
      (∀ x, b.scope? x = if id = x then some (.empty (some parent)) else a.scope? x) →
      b.free.Nodup → (∀ x, x ∈ b.free ↔ x < b.slots.size ∧ b.scope? x = none) →
      b.Stacked (id :: parent :: ids) ([] :: scopes) := by
    intro b id hid hb hnodup hfree
    have hnot : id ∉ parent :: ids := by
      intro hmem
      have hsome := h.isSome_iff.2 hmem
      rw [hid] at hsome
      cases hsome
    refine ⟨.cons (by rw [hb, if_pos rfl]; rfl) (h.chain.congr fun x hx ↦ ?_),
      List.nodup_cons.2 ⟨hnot, h.nodup⟩, h.last, fun {x} hx ↦ ?_, hnodup, hfree _⟩
    · rw [hb, if_neg]
      rintro rfl
      exact hnot hx
    · by_cases hix : id = x
      · rw [hix]
        exact List.mem_cons_self
      · rw [hb, if_neg hix] at hx
        exact List.mem_cons_of_mem _ (h.mem_of_isSome hx)
  rcases hfree : a.free with - | ⟨id, free⟩
  · have hscope : ∀ x, (⟨a.slots.push (some (.empty (some parent))), []⟩ : Arena).scope? x =
        if a.slots.size = x then some (.empty (some parent)) else a.scope? x := by
      intro x
      unfold scope?
      rw [Array.getElem?_push]
      by_cases hx : a.slots.size = x
      · subst hx
        simp
      · rw [if_neg (Ne.symm hx), if_neg hx]
    simp only [Arena.push, hfree]
    refine hopen _ _ (by simp [scope?]) hscope List.nodup_nil fun x ↦ ?_
    rw [hscope]
    have hnone := @h.mem_free_iff x
    rw [hfree] at hnone
    by_cases hx : a.slots.size = x
    · simp [hx]
    · simp only [List.not_mem_nil, false_iff, not_and] at hnone ⊢
      rw [if_neg hx, Array.size_push]
      exact fun hlt ↦ hnone (Nat.lt_of_le_of_ne (Nat.le_of_lt_succ hlt) (Ne.symm hx))
  · have hid := h.mem_free_iff.1 (hfree ▸ List.mem_cons_self : id ∈ a.free)
    have hscope : ∀ x, (⟨a.slots.setIfInBounds id (some (.empty (some parent))), free⟩ :
        Arena).scope? x = if id = x then some (.empty (some parent)) else a.scope? x := by
      intro x
      rw [scope?_setIfInBounds]
      simp [hid.1]
    have hnodup := h.free_nodup
    rw [hfree, List.nodup_cons] at hnodup
    simp only [Arena.push, hfree]
    refine hopen _ _ hid.2 hscope hnodup.2 fun x ↦ ?_
    rw [hscope, Array.size_setIfInBounds]
    have hmem := @h.mem_free_iff x
    rw [hfree, List.mem_cons] at hmem
    by_cases hx : id = x
    · subst hx
      simp [hnodup.1]
    · rw [if_neg hx, ← hmem]
      simp [Ne.symm hx]

/-- Closing the first scope leads to its parent, which is the next one. -/
theorem release (h : a.Stacked (id :: parent :: ids) (vars :: scopes)) :
    (a.release id).1 = some parent ∧ (a.release id).2.Stacked (parent :: ids) scopes := by
  have hscope : a.scope? id = some ⟨vars, some parent⟩ := by
    cases h.chain with
    | cons hs _ => exact hs
  -- The global scope is the last one, and no slot is on the chain twice.
  have hid : id ≠ global := by
    rintro rfl
    have hlast := h.last
    rw [List.getLast?_cons_cons] at hlast
    exact (List.nodup_cons.1 h.nodup).1 (List.mem_of_getLast? hlast)
  have hrel : a.release id =
      (some parent, ⟨a.slots.setIfInBounds id none, id :: a.free⟩) := by
    rw [Arena.release, if_neg hid, hscope]
  have hlt := lt_size_of_scope? hscope
  have hb : ∀ x, (⟨a.slots.setIfInBounds id none, id :: a.free⟩ : Arena).scope? x =
      if id = x then none else a.scope? x := by
    intro x
    rw [scope?_setIfInBounds]
    simp [hlt]
  rw [hrel]
  refine ⟨rfl, ?_, (List.nodup_cons.1 h.nodup).2, ?_, fun {x} hx ↦ ?_, ?_, fun {x} ↦ ?_⟩
  · cases h.chain with
    | cons _ rest =>
      refine rest.congr fun x hx ↦ ?_
      rw [hb, if_neg]
      rintro rfl
      exact (List.nodup_cons.1 h.nodup).1 hx
  · rw [← h.last, List.getLast?_cons_cons]
  · by_cases hix : id = x
    · rw [hb, if_pos hix] at hx
      cases hx
    · rw [hb, if_neg hix] at hx
      exact (List.mem_cons.1 (h.mem_of_isSome hx)).resolve_left (Ne.symm hix)
  · refine List.nodup_cons.2 ⟨fun hmem ↦ ?_, h.free_nodup⟩
    rw [h.mem_free_iff, hscope] at hmem
    cases hmem.2
  · rw [hb, List.mem_cons, h.mem_free_iff, Array.size_setIfInBounds]
    by_cases hix : id = x
    · subst hix
      simp [hlt]
    · simp [hix, Ne.symm hix]

/-- Releasing up to a scope closes all scopes in front of it, and itself. -/
theorem releaseTo {base : ScopeId} {bound : Nat} {segment : List ScopeId} {front : Scopes}
    (h : a.Stacked (segment ++ parent :: ids) (front ++ scopes))
    (hlen : segment.length = front.length) (hhead : segment.head? = some id)
    (hlast : segment.getLast? = some base) (hb : segment.length ≤ bound) :
    (a.releaseTo base bound id).Stacked (parent :: ids) scopes := by
  -- The induction is on the segment that is left to release.
  induction segment generalizing a id bound front with
  | nil => cases hhead
  | cons id' segment ih =>
    obtain rfl : id' = id := by simpa using hhead
    rcases bound with - | bound
    · cases hb
    rcases front with - | ⟨vars, front⟩
    · cases hlen
    rcases segment with - | ⟨next, segment⟩
    · obtain rfl : id' = base := by simpa using hlast
      obtain rfl : front = [] := List.eq_nil_of_length_eq_zero (by simpa using hlen.symm)
      obtain ⟨hp, ha⟩ := h.release
      rw [Arena.releaseTo]
      rcases hr : a.release id' with ⟨p, b⟩
      rw [hr] at hp ha
      subst hp
      simpa using ha
    -- The base comes later in the segment, so this is not yet it.
    · have hne : id' ≠ base := by
        rintro rfl
        rw [List.getLast?_cons_cons] at hlast
        have hmem : id' ∈ next :: segment ++ parent :: ids :=
          List.mem_append_left _ (List.mem_of_getLast? hlast)
        exact (List.nodup_cons.1 h.nodup).1 hmem
      obtain ⟨hp, ha⟩ := h.release
      rw [Arena.releaseTo]
      rcases hr : a.release id' with ⟨p, b⟩
      rw [hr] at hp ha
      subst hp
      simp only [if_neg hne]
      exact ih ha (by simpa using hlen) rfl (by rwa [List.getLast?_cons_cons] at hlast)
        (by simpa using hb)

/-- Leaving a call closes all its scopes. -/
theorem releaseThrough {base : ScopeId} {segment : List ScopeId} {front : Scopes}
    (h : a.Stacked (segment ++ parent :: ids) (front ++ scopes))
    (hlen : segment.length = front.length) (hhead : segment.head? = some id)
    (hlast : segment.getLast? = some base) :
    (a.releaseThrough id base).Stacked (parent :: ids) scopes := by
  refine h.releaseTo hlen hhead hlast ?_
  have hle := h.length_le_size
  rw [List.length_append] at hle
  omega

/-! ### Variables -/

/-- Storing variables into a scope of the chain changes just that place of the stack. -/
theorem store {before after : List ScopeId} {owner : ScopeId} {front back : Scopes} {s : Scope}
    (vars' : Vars) (h : a.Stacked (before ++ owner :: after) (front ++ vars :: back))
    (hlen : before.length = front.length) (hs : a.scope? owner = some s) :
    (a.store owner { s with vars := vars' }).Stacked (before ++ owner :: after)
      (front ++ vars' :: back) := by
  have hlt := lt_size_of_scope? hs
  have hisSome : ∀ x, ((a.store owner { s with vars := vars' }).scope? x).isSome =
      (a.scope? x).isSome := by
    intro x
    rw [Arena.store, scope?_setIfInBounds]
    by_cases hx : owner = x
    · subst hx
      simp [hlt, hs]
    · simp [hx]
  refine ⟨h.chain.store vars' h.nodup hlen hs, h.nodup, h.last, fun {x} hx ↦ ?_, h.free_nodup,
    fun {x} ↦ ?_⟩
  · rw [hisSome] at hx
    exact h.mem_of_isSome hx
  · have hx := hisSome x
    rw [← Option.not_isSome_iff_eq_none, hx, Option.not_isSome_iff_eq_none]
    simpa [Arena.store] using @h.mem_free_iff x

section From

/-! An operation may begin at any scope of the stack. It sees the scopes from there outward, and
those inside, `front`, stay as they are. -/

variable {before : List ScopeId} {front : Scopes} {name : String}

/-- A name that the scopes do not bind is not resolved. -/
theorem resolve_eq_none_from (h : a.Stacked (before ++ id :: ids) (front ++ scopes))
    (hlen : before.length = front.length) (hv : scopes.var? name = none) :
    a.resolve id name = none :=
  (h.chain.of_append_append hlen).searchFrom_eq_none _ hv

theorem lookup_eq_none_from (h : a.Stacked (before ++ id :: ids) (front ++ scopes))
    (hlen : before.length = front.length) (hv : scopes.var? name = none) :
    a.lookup id name = none := by
  rw [lookup, h.resolve_eq_none_from hlen hv]
  rfl

/-- A name that is bound from a scope outward is found, and what is done to its scope is done to the
first scope of the stack that binds it, from there outward. -/
theorem exists_lookup_eq_some_from {var : Var}
    (h : a.Stacked (before ++ id :: ids) (front ++ scopes)) (hlen : before.length = front.length)
    (hv : scopes.var? name = some var) :
    ∃ owner s, a.resolve id name = some owner ∧ a.lookup id name = some (owner, s, var) ∧
      ∀ f, (a.store owner { s with vars := f s.vars }).Stacked (before ++ id :: ids)
        (front ++ scopes.change name f) := by
  have hbound : ids.length < a.slots.size := by
    have hle := h.length_le_size
    rw [List.length_append, List.length_cons] at hle
    omega
  obtain ⟨mid, owner, after, midFront, back, s, hids, hscopes, hmid, hres, hs, hf, hc⟩ :=
    (h.chain.of_append_append hlen).exists_searchFrom_eq_some hbound hv
  refine ⟨owner, s, hres, ?_, fun f ↦ ?_⟩
  · rw [lookup, resolve, hres]
    simp [hs, hf]
  · rw [hc f, hids, ← List.append_assoc, ← List.append_assoc]
    rw [hids, hscopes, ← List.append_assoc, ← List.append_assoc] at h
    exact h.store (f s.vars) (by rw [List.length_append, List.length_append, hlen, hmid]) hs

/-- A name means the same in an arena as on the stack, from any scope outward. -/
theorem get_eq_from (h : a.Stacked (before ++ id :: ids) (front ++ scopes))
    (hlen : before.length = front.length) (name : String) :
    a.get id name = scopes.get name := by
  rw [Scopes.get]
  rcases hv : scopes.var? name with - | var
  · rw [get, h.lookup_eq_none_from hlen hv]
  · obtain ⟨owner, s, -, hl, -⟩ := h.exists_lookup_eq_some_from hlen hv
    rw [get, hl]

/-- What an operation gives and leaves behind, where the scopes `rest` from some scope outward fare
so. Where it fails they stay. -/
structure YieldsFrom (ids : List ScopeId) (front rest : Scopes)
    (r : Except ScopeError Unit × Arena) (result : Except ScopeError Scopes) : Prop where
  reply : r.1 = result.map fun _ ↦ ()
  stacked : r.2.Stacked ids (front ++ result.toOption.getD rest)

/-- An operation that fails leaves all as it was. -/
theorem YieldsFrom.error {e : ScopeError} (h : a.Stacked ids (front ++ scopes)) :
    YieldsFrom ids front scopes (.error e, a) (.error e) :=
  ⟨rfl, h⟩

/-- A declaration in an arena is one on the stack. -/
theorem declare_from (h : a.Stacked (before ++ id :: ids) (front ++ scopes))
    (hlen : before.length = front.length) (name : String) (type : Tag) (v : Value) :
    YieldsFrom (before ++ id :: ids) front scopes (a.declare id name type v)
      (scopes.declare name type v) := by
  rw [Arena.declare, Scopes.declare]
  rcases v.coerce type with e | w
  · exact .error h
  · rcases scopes with - | ⟨vars, scopes⟩
    · cases h.chain.of_append_append hlen
    have hs : a.scope? id = some ⟨vars, ids.head?⟩ := by
      cases h.chain.of_append_append hlen with
      | cons hs _ => exact hs
    simp only [hs, Scope.binds, Scope.find?]
    by_cases hb : (vars.lookup name).isSome
    · simp only [hb, if_true]
      exact .error h
    · simp only [hb]
      exact ⟨rfl, h.store _ hlen hs⟩

/-- Writing to a variable that was found, once it is known whether there is a value to write. -/
private theorem replace {owner : ScopeId} {s : Scope} {w : Value}
    (h : ∀ f, (a.store owner { s with vars := f s.vars }).Stacked ids
      (front ++ scopes.change name f)) :
    YieldsFrom ids front scopes (.ok (), a.store owner (s.replace name w))
      (.ok (scopes.change name (Vars.write name w))) := by
  rw [Scope.replace, Scope.replaceIn_eq_write]
  exact ⟨rfl, h (Vars.write name w)⟩

theorem update_from (h : a.Stacked (before ++ id :: ids) (front ++ scopes))
    (hlen : before.length = front.length) (name : String) (f : Value → Except ValueError Value) :
    YieldsFrom (before ++ id :: ids) front scopes (a.update id name f) (scopes.update name f) := by
  rw [Arena.update, Scopes.update]
  rcases hv : scopes.var? name with - | var
  · rw [h.lookup_eq_none_from hlen hv]
    exact .error h
  · obtain ⟨owner, s, -, hl, hc⟩ := h.exists_lookup_eq_some_from hlen hv
    rw [hl]
    rcases hw : f var.value with e | w
    · simp only [hw]
      exact .error h
    · simp only [hw]
      exact replace hc

theorem set_from (h : a.Stacked (before ++ id :: ids) (front ++ scopes))
    (hlen : before.length = front.length) (name : String) (v : Value) :
    YieldsFrom (before ++ id :: ids) front scopes (a.set id name v) (scopes.set name v) := by
  rw [Arena.set, Scopes.set]
  rcases hv : scopes.var? name with - | var
  · rw [h.lookup_eq_none_from hlen hv]
    exact .error h
  · obtain ⟨owner, s, -, hl, hc⟩ := h.exists_lookup_eq_some_from hlen hv
    rw [hl]
    rcases hw : v.coerce var.type with e | w
    · simp only [hw]
      exact .error h
    · simp only [hw]
      exact replace hc

theorem assign_from (h : a.Stacked (before ++ id :: ids) (front ++ scopes))
    (hlen : before.length = front.length) (name : String) (v : Value) :
    YieldsFrom (before ++ id :: ids) front scopes (a.assign id name v) (scopes.assign name v) := by
  rw [Arena.assign]
  rcases hv : scopes.var? name with - | var
  · rw [h.resolve_eq_none_from hlen hv, Scopes.assign_of_var?_eq_none v hv]
    exact h.declare_from hlen name .auto v
  · obtain ⟨owner, s, hr, -, -⟩ := h.exists_lookup_eq_some_from hlen hv
    rw [hr, Option.isSome_some, if_pos rfl, Scopes.assign_of_var?_eq_some v hv]
    exact h.set_from hlen name v

/-- To unset a name does so on the stack, and tells if it was bound. -/
theorem unset_from (h : a.Stacked (before ++ id :: ids) (front ++ scopes))
    (hlen : before.length = front.length) (name : String) :
    (a.unset id name).1 = (scopes.var? name).isSome ∧
      (a.unset id name).2.Stacked (before ++ id :: ids) (front ++ scopes.unset name) := by
  rw [Arena.unset, Scopes.unset]
  rcases hv : scopes.var? name with - | var
  · rw [h.lookup_eq_none_from hlen hv, Scopes.change_of_var?_eq_none _ hv]
    exact ⟨rfl, h⟩
  · obtain ⟨owner, s, -, hl, hc⟩ := h.exists_lookup_eq_some_from hlen hv
    rw [hl]
    exact ⟨rfl, hc _⟩

end From

/-! A machine works from the innermost scope. -/

/-- A name means the same in an arena as on its stack. -/
theorem get_eq (h : a.Stacked (id :: ids) scopes) (name : String) :
    a.get id name = match scopes.var? name with
      | some var => .ok var.value
      | none => .error (.unknown name) :=
  (show a.Stacked ([] ++ id :: ids) ([] ++ scopes) from h).get_eq_from rfl name

/-- What an operation on an arena gives and leaves behind, where the stack fares so. -/
def Yields (ids : List ScopeId) (r : Except ScopeError Unit × Arena)
    (result : Except ScopeError Scopes) : Prop :=
  match r.1, result with
  | .ok _, .ok scopes => r.2.Stacked ids scopes
  | .error e, .error e' => e = e'
  | _, _ => False

/-- What holds from the innermost scope outward holds of the whole stack. -/
theorem YieldsFrom.yields {r : Except ScopeError Unit × Arena} {result : Except ScopeError Scopes}
    (h : YieldsFrom ids [] scopes r result) : Yields ids r result := by
  obtain ⟨reply, b⟩ := r
  obtain ⟨hreply, hstacked⟩ := h
  rcases result with e | scopes'
  · obtain rfl : reply = .error e := hreply
    exact rfl
  · obtain rfl : reply = .ok () := hreply
    exact hstacked

theorem declare (h : a.Stacked (id :: ids) scopes) (name : String) (type : Tag) (v : Value) :
    Yields (id :: ids) (a.declare id name type v) (scopes.declare name type v) :=
  ((show a.Stacked ([] ++ id :: ids) ([] ++ scopes) from h).declare_from rfl name type v).yields

theorem update (h : a.Stacked (id :: ids) scopes) (name : String)
    (f : Value → Except ValueError Value) :
    Yields (id :: ids) (a.update id name f) (scopes.update name f) :=
  ((show a.Stacked ([] ++ id :: ids) ([] ++ scopes) from h).update_from rfl name f).yields

theorem assign (h : a.Stacked (id :: ids) scopes) (name : String) (v : Value) :
    Yields (id :: ids) (a.assign id name v) (scopes.assign name v) :=
  ((show a.Stacked ([] ++ id :: ids) ([] ++ scopes) from h).assign_from rfl name v).yields

theorem unset (h : a.Stacked (id :: ids) scopes) (name : String) :
    (a.unset id name).2.Stacked (id :: ids) (scopes.unset name) :=
  ((show a.Stacked ([] ++ id :: ids) ([] ++ scopes) from h).unset_from rfl name).2

end Stacked

end Arena

end Scriptlet
