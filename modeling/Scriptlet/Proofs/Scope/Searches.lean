import Mathlib.Data.List.Nodup
import Mathlib.Data.List.Perm.Subperm
import Mathlib.Logic.Relation
import Scriptlet.Proofs.Scope.Stack

/-!
# Searches that end

A search follows parent links from a scope outward until it meets a scope to stop at, a scope with
nothing around it, or a vacant slot. Nothing in an arena by itself says that one of these comes:
links are plain slot numbers, and they may lead around in a circle.

`Arena.Walk` is the search **without a bound**. It lists the slots that are looked at, so a search
that goes around in a circle has no walk, and a walk looks at no slot twice (`Walk.nodup`). What
`Arena.resolve` finds within its bound is what the walk finds (`Walk.resolve_eq`), however the links
run elsewhere.
-/

namespace Scriptlet.Arena

variable {a b : Arena} {stop : Scope → Bool} {name : String} {id parent slot owner : ScopeId}
  {ids : List ScopeId} {found : Option ScopeId}

/-! ### Walks -/

/-- A search from a scope outward for a scope to stop at: it looks at these slots, one after
another, and ends with this result. -/
inductive Walk (a : Arena) (stop : Scope → Bool) :
    ScopeId → List ScopeId → Option ScopeId → Prop where
  | vacant {id : ScopeId} (hs : a.scope? id = none) : Walk a stop id [id] none
  | here {id : ScopeId} {s : Scope} (hs : a.scope? id = some s) (hstop : stop s = true) :
      Walk a stop id [id] (some id)
  | outermost {id : ScopeId} {s : Scope} (hs : a.scope? id = some s) (hstop : stop s = false)
      (hp : s.parent = none) : Walk a stop id [id] none
  | outward {id parent : ScopeId} {s : Scope} {ids : List ScopeId} {found : Option ScopeId}
      (hs : a.scope? id = some s) (hstop : stop s = false) (hp : s.parent = some parent)
      (h : Walk a stop parent ids found) : Walk a stop id (id :: ids) found

namespace Walk

/-- A walk that does not stop goes on at the parent. -/
theorem exists_eq_cons {s : Scope} (h : a.Walk stop id ids found) (hs : a.scope? id = some s)
    (hstop : stop s = false) (hp : s.parent = some parent) :
    ∃ rest, ids = id :: rest ∧ a.Walk stop parent rest found := by
  cases h with
  | vacant hs' => simp_all
  | here hs' hstop' => simp_all
  | outermost hs' hstop' hp' => simp_all
  | outward hs' _ hp' h =>
    obtain rfl := Option.some.inj (hs.symm.trans hs')
    obtain rfl := Option.some.inj (hp.symm.trans hp')
    exact ⟨_, rfl, h⟩

/-- There is one walk from a scope. -/
theorem unique (h : a.Walk stop id ids found) {ids' : List ScopeId} {found' : Option ScopeId}
    (h' : a.Walk stop id ids' found') : ids = ids' ∧ found = found' := by
  induction h generalizing ids' found' with
  | vacant hs => cases h' <;> simp_all
  | here hs hstop => cases h' <;> simp_all
  | outermost hs hstop hp => cases h' <;> simp_all
  | outward hs hstop hp _ ih =>
    obtain ⟨rest, rfl, hrest⟩ := h'.exists_eq_cons hs hstop hp
    obtain ⟨rfl, rfl⟩ := ih hrest
    exact ⟨rfl, rfl⟩

/-- A walk goes on alike from every slot that it looks at. -/
theorem exists_suffix (h : a.Walk stop id ids found) {x : ScopeId} (hx : x ∈ ids) :
    ∃ rest, rest <:+ ids ∧ a.Walk stop x rest found := by
  induction h with
  | vacant hs =>
    obtain rfl := List.mem_singleton.1 hx
    exact ⟨_, List.suffix_rfl, .vacant hs⟩
  | here hs hstop =>
    obtain rfl := List.mem_singleton.1 hx
    exact ⟨_, List.suffix_rfl, .here hs hstop⟩
  | outermost hs hstop hp =>
    obtain rfl := List.mem_singleton.1 hx
    exact ⟨_, List.suffix_rfl, .outermost hs hstop hp⟩
  | outward hs hstop hp h ih =>
    rcases List.mem_cons.1 hx with rfl | hx
    · exact ⟨_, List.suffix_rfl, .outward hs hstop hp h⟩
    · obtain ⟨rest, hrest, hwalk⟩ := ih hx
      exact ⟨rest, hrest.trans (List.suffix_cons _ _), hwalk⟩

/-- **A walk looks at no slot twice**, for it would go on from there as it did before. -/
theorem nodup (h : a.Walk stop id ids found) : ids.Nodup := by
  induction h with
  | vacant | here | outermost => exact List.nodup_singleton _
  | outward hs hstop hp h ih =>
    refine List.nodup_cons.2 ⟨fun hmem ↦ ?_, ih⟩
    obtain ⟨rest, hrest, hwalk⟩ := h.exists_suffix hmem
    obtain ⟨rfl, -⟩ := (Walk.outward hs hstop hp h).unique hwalk
    exact absurd hrest.length_le (by simp)

/-- A walk that finds a scope looks at scopes only. -/
theorem lt_size (h : a.Walk stop id ids (some owner)) {x : ScopeId} (hx : x ∈ ids) :
    x < a.slots.size := by
  generalize hfound : some owner = found at h
  induction h with
  | vacant | outermost => cases hfound
  | here hs _ =>
    obtain rfl := List.mem_singleton.1 hx
    exact lt_size_of_scope? hs
  | outward hs _ _ _ ih =>
    rcases List.mem_cons.1 hx with rfl | hx
    · exact lt_size_of_scope? hs
    · exact ih hx hfound

/-- A walk to a scope is no longer than there are slots. -/
theorem length_le_size (h : a.Walk stop id ids (some owner)) : ids.length ≤ a.slots.size := by
  have hsub : ids ⊆ List.range a.slots.size := fun x hx ↦ List.mem_range.2 (h.lt_size hx)
  have hle := (List.subperm_of_subset h.nodup hsub).length_le
  rwa [List.length_range] at hle

/-- What is found is among the slots looked at. -/
theorem mem_found (h : a.Walk stop id ids (some owner)) : owner ∈ ids := by
  generalize hfound : some owner = found at h
  induction h with
  | vacant | outermost => cases hfound
  | here =>
    cases hfound
    exact List.mem_singleton_self _
  | outward _ _ _ _ ih => exact List.mem_cons_of_mem _ (ih hfound)

/-- What a walk stops at. -/
theorem exists_scope? (h : a.Walk stop id ids (some owner)) :
    ∃ s, a.scope? owner = some s ∧ stop s = true := by
  generalize hfound : some owner = found at h
  induction h with
  | vacant | outermost => cases hfound
  | here hs hstop =>
    cases hfound
    exact ⟨_, hs, hstop⟩
  | outward _ _ _ _ ih => exact ih hfound

/-- A walk is a matter of the slots that it looks at. -/
theorem congr (h : a.Walk stop id ids found) (hab : ∀ x ∈ ids, b.scope? x = a.scope? x) :
    b.Walk stop id ids found := by
  induction h with
  | vacant hs => exact .vacant ((hab _ List.mem_cons_self).trans hs)
  | here hs hstop => exact .here ((hab _ List.mem_cons_self).trans hs) hstop
  | outermost hs hstop hp => exact .outermost ((hab _ List.mem_cons_self).trans hs) hstop hp
  | outward hs hstop hp _ ih =>
    refine .outward ((hab _ List.mem_cons_self).trans hs) hstop hp (ih fun x hx ↦ ?_)
    exact hab x (List.mem_cons_of_mem _ hx)

/-- Where only the scope that a walk stops at is changed, a walk from the same start comes there
too, and goes on as one from there. -/
theorem exists_of_found {ids' : List ScopeId} {found' : Option ScopeId}
    (h : a.Walk stop id ids (some owner)) (hab : ∀ x, x ≠ owner → b.scope? x = a.scope? x)
    (h' : b.Walk stop owner ids' found') : ∃ ids'', b.Walk stop id ids'' found' := by
  obtain ⟨s, hs, hstop⟩ := h.exists_scope?
  generalize hfound : some owner = found at h
  induction h with
  | vacant | outermost => cases hfound
  | here =>
    cases hfound
    exact ⟨_, h'⟩
  | outward hs' hstop' hp _ ih =>
    obtain ⟨ids'', hwalk⟩ := ih hfound
    refine ⟨_, .outward ((hab _ ?_).trans hs') hstop' hp hwalk⟩
    rintro rfl
    rw [Option.some.inj (hs'.symm.trans hs), hstop] at hstop'
    cases hstop'

end Walk

/-! ### The bounded search -/

/-- The bounded search that finds a scope has walked there. -/
theorem exists_walk_of_searchFrom {bound : Nat} (h : a.searchFrom name bound id = some owner) :
    ∃ ids, a.Walk (·.binds name) id ids (some owner) := by
  fun_induction searchFrom a name bound id with
  | case1 => cases h
  | case2 => cases h
  | case3 bound id s hs hbinds =>
    cases h
    exact ⟨_, .here hs hbinds⟩
  | case4 => cases h
  | case5 bound id s hs hbinds parent hp ih =>
    obtain ⟨ids, hwalk⟩ := ih h
    exact ⟨_, .outward hs (Bool.eq_false_iff.2 hbinds) hp hwalk⟩

/-- A walk that is no longer than the bound is what the search does. -/
theorem Walk.searchFrom_eq {bound : Nat} (h : a.Walk (·.binds name) id ids (some owner))
    (hbound : ids.length ≤ bound) : a.searchFrom name bound id = some owner := by
  generalize hfound : some owner = found at h
  induction h generalizing bound with
  | vacant | outermost => cases hfound
  | here hs hbinds =>
    cases bound with
    | zero => cases hbound
    | succ bound =>
      rw [searchFrom, hs]
      exact if_pos hbinds
  | outward hs hbinds hp _ ih =>
    cases bound with
    | zero => cases hbound
    | succ bound =>
      rw [searchFrom, hs]
      simp only [hbinds, hp]
      exact ih (Nat.le_of_succ_le_succ hbound) hfound

/-- **The bound does not show**: a search that ends gives the same within it. -/
theorem Walk.resolve_eq (h : a.Walk (·.binds name) id ids found) : a.resolve id name = found := by
  -- A walk without a result may be longer than the bound, by the vacant slot at its end.
  rcases hfound : found with - | owner
  · rcases hresolve : a.resolve id name with - | owner
    · rfl
    · obtain ⟨ids', h'⟩ := exists_walk_of_searchFrom hresolve
      cases hfound.symm.trans (h.unique h').2
  · rw [hfound] at h
    exact h.searchFrom_eq h.length_le_size

/-! ### Links -/

/-- The scope around a scope; none for a vacant slot. -/
def parent? (a : Arena) (id : ScopeId) : Option ScopeId :=
  ((a.scope? id).map Scope.parent).join

/-- The parent links lead from a slot to another, in any number of steps. -/
def Leads (a : Arena) : ScopeId → ScopeId → Prop :=
  Relation.ReflTransGen fun id parent ↦ a.parent? id = some parent

/-- The parent links from a slot outward come to an end. -/
def Ends (a : Arena) (id : ScopeId) : Prop :=
  Acc (fun parent id ↦ a.parent? id = some parent) id

theorem parent?_eq {s : Scope} (h : a.scope? id = some s) : a.parent? id = s.parent := by
  rw [parent?, h, Option.map_some, Option.join_some]

/-- **A search ends where the links do**, if not before, whatever it is for. -/
theorem Ends.exists_walk (h : a.Ends id) (stop : Scope → Bool) :
    ∃ ids found, a.Walk stop id ids found := by
  induction h with
  | intro id _ ih =>
    rcases hs : a.scope? id with - | s
    · exact ⟨_, _, .vacant hs⟩
    rcases hstop : stop s with - | -
    · rcases hp : s.parent with - | parent
      · exact ⟨_, _, .outermost hs hstop hp⟩
      · obtain ⟨ids, found, hwalk⟩ := ih parent ((parent?_eq hs).trans hp)
        exact ⟨_, _, .outward hs hstop hp hwalk⟩
    · exact ⟨_, _, .here hs hstop⟩

/-- Where nothing is to stop at nothing is found. -/
theorem Walk.eq_none (h : a.Walk (fun _ ↦ false) id ids found) : found = none := by
  induction h with
  | vacant | outermost => rfl
  | here _ hstop => cases hstop
  | outward _ _ _ _ ih => exact ih

/-- A search that stops nowhere follows all links. -/
theorem Walk.ends (h : a.Walk (fun _ ↦ false) id ids found) : a.Ends id := by
  induction h with
  | vacant hs =>
    refine .intro _ fun parent hp ↦ ?_
    rw [parent?, hs] at hp
    cases hp
  | here _ hstop => cases hstop
  | outermost hs _ hnone =>
    refine .intro _ fun parent hp ↦ ?_
    rw [parent?_eq hs, hnone] at hp
    cases hp
  | outward hs _ hsome _ ih =>
    refine .intro _ fun parent hp ↦ ?_
    rw [parent?_eq hs, hsome] at hp
    cases hp
    exact ih

/-- The links lead from the start of a walk to every slot that it looks at. -/
theorem Walk.leads (h : a.Walk stop id ids found) {x : ScopeId} (hx : x ∈ ids) : a.Leads id x := by
  induction h with
  | vacant | here | outermost =>
    obtain rfl := List.mem_singleton.1 hx
    exact .refl
  | outward hs _ hp _ ih =>
    rcases List.mem_cons.1 hx with rfl | hx
    · exact .refl
    · exact .head ((parent?_eq hs).trans hp) (ih hx)

/-- Links that come to an end do so from the next slot, too. -/
theorem Ends.outward (h : a.Ends id) (hp : a.parent? id = some parent) : a.Ends parent :=
  h.inv hp

/-- They do so from everywhere on the way. -/
theorem Ends.of_leads (h : a.Ends id) {x : ScopeId} (hx : a.Leads id x) : a.Ends x := by
  induction hx with
  | refl => exact h
  | tail _ hp ih => exact ih.outward hp

/-- Links that end do not lead back. -/
theorem Ends.not_leads (h : a.Ends id) (hp : a.parent? id = some parent) : ¬ a.Leads parent id := by
  induction h generalizing parent with
  | intro id _ ih =>
    -- A circle through `id` goes on to `parent`, so it is one through `parent` as well.
    intro hback
    rcases Relation.ReflTransGen.cases_head hback with rfl | ⟨next, hnext, hrest⟩
    · exact ih parent hp hp .refl
    · exact ih parent hp hnext (hrest.tail hp)

end Scriptlet.Arena
