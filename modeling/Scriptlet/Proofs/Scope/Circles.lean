import Scriptlet.Proofs.Scope.FreeSlots
import Scriptlet.Proofs.Scope.Searches

/-!
# Circles of scopes

A released scope leaves behind the links to its slot, and the slot is taken again by a scope that
may be inside one that still links there. Then the links lead around in a circle, and a search for a
name that nobody on it binds does not end. **Live handles do not help**: the circle at the end of
this module is closed with handles of scopes that are live when they are used.

Only opening a scope can do this, and just if the links from its parent lead to the slot that it
takes (`Sound.forall_ends_push_iff`). A history without such a step keeps all links ending.
-/

namespace Scriptlet

namespace Arena

variable {a b : Arena} {id parent : ScopeId}

/-- The access opens a scope in a slot that the links from its parent lead to. -/
def ClosesCircle (a : Arena) : Access → Prop
  | .push parent => a.Leads parent (a.push parent).1
  | .release _ | .change _ _ | .unset _ _ | .get _ _ | .snapshot _ => False

/-- None of these accesses, one after another, closes a circle. -/
def ClosesNone (a : Arena) : List Access → Prop
  | [] => True
  | access :: accesses => ¬ a.ClosesCircle access ∧ (a.after access).ClosesNone accesses

/-! ### One step -/

/-- With fewer links, what ended ends. -/
theorem Ends.mono (h : a.Ends id) (hab : ∀ x p, b.parent? x = some p → a.parent? x = some p) :
    b.Ends id :=
  Subrelation.accessible (fun hp ↦ hab _ _ hp) h

/-- The links are the same slot by slot. -/
theorem SameLinks.parent?_eq (h : a.SameLinks b) (id : ScopeId) : b.parent? id = a.parent? id := by
  rw [parent?, parent?, h.links]

/-- A scope that is released takes its link with it; the others keep theirs. -/
theorem parent?_of_release {x p : ScopeId} (h : (a.release id).2.parent? x = some p) :
    a.parent? x = some p := by
  rw [parent?, scope?_release] at h
  split at h
  · cases h
  · exact h

namespace Sound

/-- A new scope has a link to its parent, and the others keep theirs. -/
theorem parent?_push (h : a.Sound) (parent x : ScopeId) :
    (a.push parent).2.parent? x =
      if (a.push parent).1 = x then some parent else a.parent? x := by
  rw [parent?, h.scope?_push]
  split
  · rfl
  · rfl

/-- A slot that is about to be taken has no link yet. -/
theorem parent?_of_parent? (h : a.Sound) {x p : ScopeId} (hp : a.parent? x = some p) :
    (a.push parent).2.parent? x = some p := by
  rw [h.parent?_push, if_neg]
  · exact hp
  · rintro rfl
    rw [parent?, h.scope?_push_eq_none] at hp
    cases hp

/-- Links that do not come to the new scope end as they did. -/
theorem ends_push_of_not_leads (h : a.Sound) (hends : a.Ends id)
    (hnot : ¬ a.Leads id (a.push parent).1) : (a.push parent).2.Ends id := by
  induction hends with
  | intro id _ ih =>
    refine .intro _ fun p hp ↦ ?_
    have hne : (a.push parent).1 ≠ id := by
      rintro rfl
      exact hnot .refl
    rw [h.parent?_push, if_neg hne] at hp
    exact ih p hp fun hleads ↦ hnot (.head hp hleads)

/-- **When opening a scope keeps all links ending**: just if the links from its parent do not lead
to the slot that it takes. -/
theorem forall_ends_push_iff (h : a.Sound) (parent : ScopeId) :
    (∀ id, (a.push parent).2.Ends id) ↔
      (∀ id, a.Ends id) ∧ ¬ a.Leads parent (a.push parent).1 := by
  constructor
  · intro hends
    refine ⟨fun id ↦ (hends id).mono fun _ _ ↦ h.parent?_of_parent?, fun hleads ↦ ?_⟩
    have hnew : (a.push parent).2.parent? (a.push parent).1 = some parent := by
      rw [h.parent?_push, if_pos rfl]
    -- The old links are still there, so they lead from the parent back to the new scope.
    refine (hends _).not_leads hnew ?_
    exact Relation.ReflTransGen.mono (fun _ _ ↦ h.parent?_of_parent?) _ _ hleads
  · rintro ⟨hends, hnot⟩ id
    have hparent := h.ends_push_of_not_leads (hends parent) hnot
    -- The induction is on the old links; where they come to the new scope, `hparent` takes over.
    induction hends id with
    | intro id _ ih =>
      refine .intro _ fun p hp ↦ ?_
      have hlink := hp
      rw [h.parent?_push] at hlink
      split at hlink
      · cases hlink
        exact hparent
      · exact ih p hlink

/-- **One access** that closes no circle keeps all links ending. -/
theorem ends_after (h : a.Sound) (hends : ∀ id, a.Ends id) {access : Access}
    (hnot : ¬ a.ClosesCircle access) (id : ScopeId) : (a.after access).Ends id := by
  cases access with
  | push parent => exact (h.forall_ends_push_iff parent).2 ⟨hends, hnot⟩ id
  | release => exact (hends id).mono fun _ _ ↦ parent?_of_release
  | change x c =>
    exact (hends id).mono fun y p hp ↦ (SameLinks.change a x c).parent?_eq y ▸ hp
  | unset x name =>
    exact (hends id).mono fun y p hp ↦ (SameLinks.edits (a.edits_unset x name)).parent?_eq y ▸ hp
  | get | snapshot => exact hends id

/-- Where all links come to an end afterwards, the access has closed no circle. -/
theorem not_closesCircle (h : a.Sound) {access : Access}
    (hends : ∀ id, (a.after access).Ends id) : ¬ a.ClosesCircle access := by
  cases access with
  | push parent => exact ((h.forall_ends_push_iff parent).1 hends).2
  | release | change | unset | get | snapshot => exact not_false

/-! ### A history -/

/-- No access of a history closes a circle just if all links come to an end at each point of it. -/
theorem closesNone_iff (h : a.Sound) (hends : ∀ id, a.Ends id) (accesses : List Access) :
    a.ClosesNone accesses ↔
      ∀ before, before <+: accesses → ∀ id, (a.afterAll before).Ends id := by
  induction accesses generalizing a with
  | nil =>
    refine ⟨fun _ before hbefore ↦ ?_, fun _ ↦ trivial⟩
    rw [List.prefix_nil.1 hbefore]
    exact hends
  | cons access accesses ih =>
    constructor
    · rintro ⟨hnot, hrest⟩ before hbefore
      rcases before with - | ⟨first, before⟩
      · exact hends
      · obtain ⟨rfl, hprefix⟩ := List.cons_prefix_cons.1 hbefore
        exact (ih (h.after _) (h.ends_after hends hnot)).1 hrest before hprefix
    · intro hall
      have hafter : ∀ id, (a.after access).Ends id := hall [access] (by simp)
      refine ⟨h.not_closesCircle hafter, (ih (h.after access) hafter).2 fun before hbefore ↦ ?_⟩
      exact hall (access :: before) (List.prefix_cons_inj _ |>.2 hbefore)

end Sound

theorem ends_new (id : ScopeId) : new.Ends id := by
  refine .intro _ fun p hp ↦ ?_
  rcases id with - | id <;> simp [parent?, new, scope?, Scope.empty] at hp

/-- **The links end in every state of a history just if no step of it closes a circle.** The handles
may be of any kind, released or never given. After a history that closes none, the search for every
name ends from every slot, live or not. It looks at no slot twice, and `resolve` gives its
result. -/
theorem closesNone_iff_walk (accesses : List Access) :
    (new.ClosesNone accesses ↔ ∀ before, before <+: accesses →
      ∀ id, ((new.afterAll before).scope? id).isSome →
        ∃ ids, (new.afterAll before).Walk (fun _ ↦ false) id ids none ∧ ids.Nodup) ∧
      (new.ClosesNone accesses → ∀ id name, ∃ ids found,
        (new.afterAll accesses).Walk (·.binds name) id ids found ∧ ids.Nodup ∧
          (new.afterAll accesses).resolve id name = found) := by
  have hiff := Sound.new.closesNone_iff ends_new accesses
  constructor
  · rw [hiff]
    refine forall₂_congr fun before _ ↦ ⟨fun hends id _ ↦ ?_, fun hwalks id ↦ ?_⟩
    · obtain ⟨ids, found, hwalk⟩ := (hends id).exists_walk fun _ ↦ false
      obtain rfl := hwalk.eq_none
      exact ⟨ids, hwalk, hwalk.nodup⟩
    · rcases hs : (new.afterAll before).scope? id with - | s
      · exact (Walk.vacant hs).ends
      · obtain ⟨ids, hwalk, -⟩ := hwalks id (by rw [hs]; rfl)
        exact hwalk.ends
  · intro hnone id name
    have hends := hiff.1 hnone accesses List.prefix_rfl id
    obtain ⟨ids, found, hwalk⟩ := hends.exists_walk (·.binds name)
    exact ⟨ids, found, hwalk, hwalk.nodup, hwalk.resolve_eq⟩

/-- Nothing leads on from a slot without a link. -/
theorem eq_of_leads (h : a.Leads id parent) (hnone : a.parent? id = none) : parent = id := by
  rcases Relation.ReflTransGen.cases_head h with rfl | ⟨next, hnext, -⟩
  · rfl
  · rw [hnone] at hnext
    cases hnext

/-- The slot of a released scope is taken by one inside the global scope. The scope that still links
there is then inside the new one, and its search ends. -/
theorem closesNone_iff_walk_recycled :
    new.ClosesNone [.push 0, .push 1, .release 1, .push 0] ∧
      ∃ ids found, (new.afterAll [.push 0, .push 1, .release 1, .push 0]).Walk (·.binds "x") 2 ids
        found ∧ ids.Nodup ∧
        (new.afterAll [.push 0, .push 1, .release 1, .push 0]).resolve 2 "x" = found := by
  have hnone : new.ClosesNone [.push 0, .push 1, .release 1, .push 0] := by
    refine ⟨fun h ↦ ?_, fun h ↦ ?_, not_false, fun h ↦ ?_, trivial⟩
    · cases eq_of_leads h rfl
    · rcases Relation.ReflTransGen.cases_head h with h | ⟨next, hnext, hrest⟩
      · cases h
      · cases hnext
        cases eq_of_leads hrest rfl
    · cases eq_of_leads h rfl
  exact ⟨hnone, (closesNone_iff_walk _).2 hnone 2 "x"⟩

/-- A scope is opened inside the global one and another inside that. The first is released, and its
slot is taken by a scope inside the second, which still links there. -/
theorem leads_around :
    let outer := new.push global
    let inner := outer.2.push outer.1
    let released := inner.2.release outer.1
    let last := released.2.push inner.1
    last.1 = outer.1 ∧ (last.2.scope? last.1).isSome ∧ (last.2.scope? inner.1).isSome ∧
      last.2.parent? last.1 = some inner.1 ∧ last.2.parent? inner.1 = some last.1 ∧
      ∀ name ids found, ¬ last.2.Walk (·.binds name) last.1 ids found := by
  intro outer inner released last
  refine ⟨rfl, rfl, rfl, rfl, rfl, fun name ids found hwalk ↦ ?_⟩
  -- After two links the search is where it began.
  obtain ⟨rest, rfl, hrest⟩ := hwalk.exists_eq_cons (s := .empty (some inner.1)) rfl rfl rfl
  obtain ⟨again, rfl, hagain⟩ := hrest.exists_eq_cons (s := .empty (some last.1)) rfl rfl rfl
  have hlength := congrArg List.length (hwalk.unique hagain).1
  rw [List.length_cons, List.length_cons] at hlength
  omega

end Arena

end Scriptlet
