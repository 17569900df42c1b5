import Mathlib.Data.List.Nodup
import Mathlib.Data.List.Dedup
import Scriptlet.Proofs.Scope.Clients
import Scriptlet.Proofs.Scope.Edits

/-!
# Free slots

Nobody checks the handles that an arena is given. They may be of live scopes, of scopes released
once or twice, or of slots that were never there. The list of free slots has to survive all of it:
a slot listed twice would be given to two callers, much later.

`Arena.Sound` is what every access keeps (`Sound.after`), and so every history (`Sound.afterAll`):
the list of free slots names each vacant slot once and nothing else, and the global scope is there.
-/

namespace Scriptlet

/-- A use of an arena, with handles of any kind. -/
inductive Access where
  | push (parent : ScopeId)
  | release (id : ScopeId)
  | change (id : ScopeId) (c : Change)
  | unset (id : ScopeId) (name : String)
  | get (id : ScopeId) (name : String)
  | snapshot (id : ScopeId)

namespace Arena

variable {a b : Arena} {id parent x : ScopeId}

/-- The arena after an access, whether that fails or not. -/
def after (a : Arena) : Access → Arena
  | .push parent => (a.push parent).2
  | .release id => (a.release id).2
  | .change id c => (c.inArena a id).2
  | .unset id name => (a.unset id name).2
  | .get _ _ | .snapshot _ => a

/-- The arena after a history of accesses. -/
def afterAll (a : Arena) (accesses : List Access) : Arena :=
  accesses.foldl after a

/-! ### Work on variables -/

/-- Two arenas have scopes in the same slots, with the same links. Their variables may differ. -/
structure SameLinks (a b : Arena) : Prop where
  free : b.free = a.free
  size : b.slots.size = a.slots.size
  links : ∀ id, (b.scope? id).map Scope.parent = (a.scope? id).map Scope.parent

namespace SameLinks

theorem refl (a : Arena) : a.SameLinks a :=
  ⟨rfl, rfl, fun _ ↦ rfl⟩

/-- The variables of a scope may be replaced. -/
theorem store {owner : ScopeId} {s s' : Scope} (hs : a.scope? owner = some s)
    (hparent : s'.parent = s.parent) : a.SameLinks (a.store owner s') := by
  refine ⟨rfl, Array.size_setIfInBounds, fun id ↦ ?_⟩
  rw [scope?_store hs]
  split
  · next heq =>
    subst heq
    rw [hs, Option.map_some, Option.map_some, hparent]
  · rfl

/-- Operations on variables keep the links. -/
theorem edits (h : a.Edits id b) : a.SameLinks b := by
  cases h with
  | same => exact .refl a
  | insert hs _ _ => exact .store hs rfl
  | replace hs _ _ => exact .store hs rfl
  | erase hs => exact .store hs rfl

theorem update (a : Arena) (id : ScopeId) (name : String) (f : Value → Except ValueError Value) :
    a.SameLinks (a.update id name f).2 := by
  rw [Arena.update]
  rcases hlookup : a.lookup id name with - | ⟨owner, s, var⟩
  · exact .refl a
  · dsimp only
    rcases f var.value with e | w
    · exact .refl a
    · exact .store (scope?_of_lookup hlookup).1 rfl

/-- So does every change that a client may ask for. -/
theorem change (a : Arena) (id : ScopeId) (c : Change) : a.SameLinks (c.inArena a id).2 := by
  cases c with
  | declare name type v => exact .edits (a.edits_declare id name type v)
  | update name f => exact .update a id name f
  | set name v => exact .edits (a.edits_set id name v)
  | assign name v => exact .edits (a.edits_assign id name v)

theorem isSome_eq (h : a.SameLinks b) (id : ScopeId) :
    (b.scope? id).isSome = (a.scope? id).isSome := by
  rw [← Option.isSome_map (f := Scope.parent), h.links, Option.isSome_map]

theorem eq_none_iff (h : a.SameLinks b) (id : ScopeId) :
    b.scope? id = none ↔ a.scope? id = none := by
  rw [← Option.isNone_iff_eq_none, ← Option.isNone_iff_eq_none, ← Option.not_isSome,
    ← Option.not_isSome, h.isSome_eq]

end SameLinks

/-! ### Sound arenas -/

/-- The global scope is there, and the list of free slots names each vacant slot once. -/
structure Sound (a : Arena) : Prop where
  global : (a.scope? global).isSome
  nodup : a.free.Nodup
  mem_free_iff : ∀ id, id ∈ a.free ↔ id < a.slots.size ∧ a.scope? id = none

/-- A scope that is released leaves a vacant slot; nothing else changes. -/
theorem scope?_release (a : Arena) (id x : ScopeId) :
    (a.release id).2.scope? x = if id ≠ global ∧ id = x then none else a.scope? x := by
  rw [release]
  by_cases hglobal : id = global
  · rw [if_pos hglobal, if_neg fun h ↦ h.1 hglobal]
  rw [if_neg hglobal]
  rcases hs : a.scope? id with - | s
  · dsimp only
    split
    · next h => rw [← h.2, hs]
    · rfl
  · rw [scope?_setIfInBounds]
    simp only [lt_size_of_scope? hs, and_true, ne_eq, hglobal, not_false_eq_true, true_and]

/-- Without free slots a new one is added. -/
theorem push_of_free_eq_nil (h : a.free = []) (parent : ScopeId) :
    a.push parent = (a.slots.size, ⟨a.slots.push (some (.empty (some parent))), []⟩) := by
  rw [push, h]

/-- The first free slot is taken. -/
theorem push_of_free_eq_cons {free : List ScopeId} (h : a.free = id :: free) (parent : ScopeId) :
    a.push parent = (id, ⟨a.slots.setIfInBounds id (some (.empty (some parent))), free⟩) := by
  rw [push, h]

namespace Sound

theorem new : Arena.new.Sound := by
  refine ⟨rfl, List.nodup_nil, fun id ↦ ?_⟩
  rcases id with - | id <;> simp [Arena.new, scope?]

/-- Soundness is a matter of slots and links only. -/
theorem sameLinks (h : a.Sound) (hab : a.SameLinks b) : b.Sound where
  global := by
    rw [hab.isSome_eq]
    exact h.global
  nodup := by
    rw [hab.free]
    exact h.nodup
  mem_free_iff id := by
    rw [hab.free, hab.size, hab.eq_none_iff]
    exact h.mem_free_iff id

/-- A slot that is vacated becomes free, and was not so before. -/
theorem release (h : a.Sound) (id : ScopeId) : (a.release id).2.Sound := by
  rw [Arena.release]
  by_cases hglobal : id = Arena.global
  · rw [if_pos hglobal]
    exact h
  rw [if_neg hglobal]
  rcases hs : a.scope? id with - | s
  · exact h
  have hscope : ∀ x, (⟨a.slots.setIfInBounds id none, id :: a.free⟩ : Arena).scope? x =
      if id = x then none else a.scope? x := by
    intro x
    rw [scope?_setIfInBounds]
    simp only [lt_size_of_scope? hs, and_true]
  refine ⟨?_, List.nodup_cons.2 ⟨fun hmem ↦ ?_, h.nodup⟩, fun x ↦ ?_⟩
  · rw [hscope, if_neg hglobal]
    exact h.global
  · -- A slot that is listed as free holds nothing that could be released.
    rw [h.mem_free_iff, hs] at hmem
    cases hmem.2
  · rw [hscope, List.mem_cons, h.mem_free_iff, Array.size_setIfInBounds]
    by_cases hx : id = x
    · subst hx
      simp [lt_size_of_scope? hs]
    · simp [hx, Ne.symm hx]

/-- Free slots are vacant. -/
theorem of_mem_free (h : a.Sound) (hid : id ∈ a.free) :
    id < a.slots.size ∧ a.scope? id = none :=
  (h.mem_free_iff id).1 hid

/-- A new scope is given a slot that holds none. -/
theorem scope?_push_eq_none (h : a.Sound) (parent : ScopeId) :
    a.scope? (a.push parent).1 = none := by
  rcases hfree : a.free with - | ⟨id, free⟩
  · rw [push_of_free_eq_nil hfree]
    exact congrArg Option.join (Array.getElem?_eq_none (Nat.le_refl _))
  · rw [push_of_free_eq_cons hfree]
    exact (h.of_mem_free (hfree ▸ List.mem_cons_self)).2

/-- Behind an opened scope all others are as they were. -/
theorem scope?_push (h : a.Sound) (parent x : ScopeId) :
    (a.push parent).2.scope? x =
      if (a.push parent).1 = x then some (.empty (some parent)) else a.scope? x := by
  rcases hfree : a.free with - | ⟨id, free⟩
  · rw [push_of_free_eq_nil hfree]
    unfold scope?
    dsimp only
    rw [Array.getElem?_push]
    by_cases hx : a.slots.size = x
    · rw [if_pos hx.symm, if_pos hx, Option.join_some]
    · rw [if_neg (Ne.symm hx), if_neg hx]
  · have hlt : id < a.slots.size := (h.of_mem_free (hfree ▸ List.mem_cons_self)).1
    rw [push_of_free_eq_cons hfree, scope?_setIfInBounds]
    simp only [hlt, and_true]

/-- A new scope is put where no scope was, and that slot is no longer free. -/
theorem push (h : a.Sound) (parent : ScopeId) : (a.push parent).2.Sound := by
  have hscope := h.scope?_push parent
  have hglobal : ((a.push parent).2.scope? Arena.global).isSome := by
    rw [hscope]
    split
    · rfl
    · exact h.global
  -- The slot is a new one at the end, or the first of the free ones.
  rcases hfree : a.free with - | ⟨id, free⟩
  · rw [push_of_free_eq_nil hfree] at hscope hglobal ⊢
    refine ⟨hglobal, List.nodup_nil, fun x ↦ ?_⟩
    have hx := h.mem_free_iff x
    rw [hfree] at hx
    rw [hscope, Array.size_push]
    by_cases hlast : a.slots.size = x
    · simp [hlast]
    · rw [if_neg hlast, hx]
      exact and_congr_left fun _ ↦ ⟨Nat.lt_succ_of_lt,
        fun hlt ↦ Nat.lt_of_le_of_ne (Nat.le_of_lt_succ hlt) (Ne.symm hlast)⟩
  · rw [push_of_free_eq_cons hfree] at hscope hglobal ⊢
    have hnodup := h.nodup
    rw [hfree, List.nodup_cons] at hnodup
    refine ⟨hglobal, hnodup.2, fun x ↦ ?_⟩
    have hx := h.mem_free_iff x
    rw [hfree, List.mem_cons] at hx
    rw [hscope, Array.size_setIfInBounds]
    by_cases htaken : id = x
    · subst htaken
      simp [hnodup.1]
    · rw [if_neg htaken, ← hx]
      simp [Ne.symm htaken]

/-- **An access keeps an arena sound**, whatever handle it is given. -/
theorem after (h : a.Sound) (access : Access) : (a.after access).Sound := by
  cases access with
  | push parent => exact h.push parent
  | release id => exact h.release id
  | change id c => exact h.sameLinks (.change a id c)
  | unset id name => exact h.sameLinks (.edits (a.edits_unset id name))
  | get | snapshot => exact h

/-- Every history leaves a sound arena. -/
theorem afterAll (h : a.Sound) (accesses : List Access) : (a.afterAll accesses).Sound := by
  induction accesses generalizing a with
  | nil => exact h
  | cons access accesses ih => exact ih (h.after access)

/-- The free slots, in some order, are those that hold no scope. -/
theorem free_perm (h : a.Sound) :
    a.free.Perm ((List.range a.slots.size).filter fun id ↦ (a.scope? id).isNone) := by
  refine (List.perm_ext_iff_of_nodup h.nodup (List.nodup_range.filter _)).2 fun id ↦ ?_
  rw [h.mem_free_iff, List.mem_filter, List.mem_range, Option.isNone_iff_eq_none]

/-- There are as many scopes as slots that hold one. -/
theorem live_eq (h : a.Sound) : a.live = a.slots.countP Option.isSome := by
  have hslots : a.slots.toList = (List.range a.slots.size).map a.scope? := by
    refine List.ext_getElem (by simp) fun i hi hi' ↦ ?_
    rw [List.getElem_map, List.getElem_range, scope?, Array.getElem?_eq_getElem hi,
      Option.join_some, Array.getElem_toList]
  have hnone : ((fun v : Option Scope ↦ decide ¬v.isSome = true) ∘ a.scope?) =
      fun id ↦ (a.scope? id).isNone := by
    funext id
    rw [Function.comp_apply, ← Option.not_isSome]
    cases (a.scope? id).isSome <;> rfl
  -- Every slot holds a scope or is free, and the free ones are as many as the list says.
  have hsplit := List.length_eq_countP_add_countP Option.isSome (l := a.slots.toList)
  rw [hslots, List.length_map, List.length_range, List.countP_map, List.countP_map, hnone,
    List.countP_eq_length_filter (l := List.range _) (p := fun id ↦ (a.scope? id).isNone),
    ← h.free_perm.length_eq] at hsplit
  rw [live, ← Array.countP_toList, hslots, List.countP_map]
  omega

end Sound

/-! ### Every history -/

/-- **Free slots after any history**, of any accesses with any handles. The free slots are listed
once each; they are just the slots that were made and hold no scope now, so the global one, which is
always there, is never among them. As many scopes live as slots hold one, and the next scope is
given a slot that no live scope has. -/
theorem free_nodup_and_push_ne (accesses : List Access) :
    let a := new.afterAll accesses
    a.free.Nodup ∧ (∀ id, id ∈ a.free ↔ id < a.slots.size ∧ a.scope? id = none) ∧
      global ∉ a.free ∧ (a.scope? global).isSome ∧ a.live = a.slots.countP Option.isSome ∧
      ∀ parent id, (a.scope? id).isSome → (a.push parent).1 ≠ id := by
  intro a
  have h : a.Sound := Sound.new.afterAll accesses
  refine ⟨h.nodup, h.mem_free_iff, fun hmem ↦ ?_, h.global, h.live_eq, fun parent id hid heq ↦ ?_⟩
  · have hglobal := h.global
    rw [(h.of_mem_free hmem).2] at hglobal
    cases hglobal
  · rw [← heq, h.scope?_push_eq_none] at hid
    cases hid

end Arena

end Scriptlet
