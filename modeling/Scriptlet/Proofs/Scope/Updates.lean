import Scriptlet.Proofs.Scope.FreeSlots
import Scriptlet.Proofs.Scope.Searches

/-!
# One binding at a time

Declaring, setting, assigning and setting an item check, coerce and write in orders of their own,
but each of them either fails and leaves the arena **as it was**, or writes one binding: a new one
in the scope itself, or else the first one of the name from there outward. Deleting takes that first
binding away, and what it covered shows.

`Arena.DiffersIn` says what is the same: every other slot, the free ones, and in the scope of the
binding its parent. How the variables of that scope differ is written out, so the places of all
others, their types and values are seen to stay.
-/

namespace Scriptlet

/-! ### Items of a list -/

namespace Value

/-- A place is an index in range. -/
theorem exists_of_place {i : Value} {length k : Nat} (h : place i length = .ok k) :
    ∃ n, i.toInt64 = .ok n ∧ n.toInt = k ∧ k < length := by
  rw [place] at h
  rcases hi : i.toInt64 with e | n
  · rw [hi] at h
    cases h
  · rw [hi] at h
    dsimp only [bind, Except.bind] at h
    split at h <;> cases h
    exact ⟨n, rfl, by omega, by omega⟩

/-- An item is set at a place that the list has; all other items stay. -/
theorem exists_of_setIndex {container i item w : Value} (h : container.setIndex i item = .ok w) :
    ∃ n before old after, i.toInt64 = .ok n ∧ n.toInt = List.length before ∧
      container = .list (before ++ old :: after) ∧ w = .list (before ++ item :: after) := by
  cases container with
  | list items =>
    rw [setIndex] at h
    rcases hplace : place i items.length with e | k
    · rw [hplace] at h
      cases h
    · rw [hplace] at h
      cases h
      obtain ⟨n, hn, hk, hlt⟩ := exists_of_place hplace
      refine ⟨n, items.take k, items[k], items.drop (k + 1), hn, ?_, ?_, ?_⟩
      · rw [hk, List.length_take_of_le (Nat.le_of_lt hlt)]
      · rw [← List.drop_eq_getElem_cons hlt, List.take_append_drop]
      · rw [List.set_eq_take_append_cons_drop, if_pos hlt]
  | _ => cases h

end Value

/-! ### The bindings of a scope -/

namespace Scope

variable {name : String} {var : Var} {front back : Vars}

/-- A scope binds the names that it lists. -/
theorem binds_iff (s : Scope) (name : String) : s.binds name ↔ name ∈ s.vars.map Prod.fst := by
  simp [binds, find?, List.lookup_isSome_iff]

/-- A name that is bound has its binding at a place, and none before that. -/
theorem exists_split_of_find? {s : Scope} (h : s.find? name = some var) :
    ∃ front back, s.vars = front ++ (name, var) :: back ∧ name ∉ front.map Prod.fst := by
  obtain ⟨front, back, hvars, hfront⟩ := List.lookup_eq_some_iff.1 h
  refine ⟨front, back, hvars, fun hmem ↦ ?_⟩
  obtain ⟨b, hb, rfl⟩ := List.mem_map.1 hmem
  exact absurd rfl (bne_iff_ne.1 (hfront b hb))

theorem lookup_split (hname : name ∉ front.map Prod.fst) :
    (front ++ (name, var) :: back).lookup name = some var := by
  refine List.lookup_eq_some_iff.2 ⟨front, back, rfl, fun b hb ↦ bne_iff_ne.2 ?_⟩
  rintro rfl
  exact hname (List.mem_map_of_mem hb)

theorem replaceIn_split (w : Value) (hname : name ∉ front.map Prod.fst) :
    replaceIn name w (front ++ (name, var) :: back) = front ++ (name, ⟨var.type, w⟩) :: back := by
  induction front with
  | nil => rw [List.nil_append, replaceIn, if_pos (beq_self_eq_true name), List.nil_append]
  | cons b front ih =>
    rw [List.map_cons, List.mem_cons, not_or] at hname
    rw [List.cons_append, replaceIn, if_neg (by simpa using Ne.symm hname.1), ih hname.2,
      List.cons_append]

theorem eraseP_split (hname : name ∉ front.map Prod.fst) :
    ((front ++ (name, var) :: back).eraseP fun b ↦ b.1 == name) = front ++ back := by
  have hfront : ∀ b ∈ front, ¬ (b.1 == name) = true := by
    intro b hb heq
    exact hname (eq_of_beq heq ▸ List.mem_map_of_mem hb)
  rw [List.eraseP_append_right _ hfront]
  exact congrArg (front ++ ·) (List.eraseP_cons_of_pos (beq_self_eq_true name))

/-- A name that is bound once is not bound beside its binding. -/
theorem not_mem_of_distinct {parent : Option ScopeId}
    (h : Distinct ⟨front ++ (name, var) :: back, parent⟩) :
    name ∉ (front ++ back).map Prod.fst := by
  rw [Distinct, List.map_append, List.map_cons, List.nodup_middle] at h
  rw [List.map_append]
  exact (List.nodup_cons.1 h).1

end Scope

namespace Arena

variable {a b : Arena} {id owner : ScopeId} {name : String} {s : Scope} {var : Var} {v w : Value}
  {vars vars' : Vars} {type : Tag}

/-! ### What differs -/

/-- Two arenas differ in the variables of one scope at most: these are in place of those. -/
structure DiffersIn (a b : Arena) (owner : ScopeId) (vars vars' : Vars) : Prop where
  free : b.free = a.free
  size : b.slots.size = a.slots.size
  others : ∀ id, id ≠ owner → b.scope? id = a.scope? id
  own : ∃ parent, a.scope? owner = some ⟨vars, parent⟩ ∧ b.scope? owner = some ⟨vars', parent⟩

/-- To store a scope with the same parent makes a difference in its variables only. -/
theorem DiffersIn.store (hs : a.scope? owner = some s) (hvars : s.vars = vars)
    (s' : Scope) (hvars' : s'.vars = vars') (hparent : s'.parent = s.parent) :
    a.DiffersIn (a.store owner s') owner vars vars' := by
  subst hvars hvars'
  refine ⟨rfl, Array.size_setIfInBounds, fun id hne ↦ ?_, s.parent, hs, ?_⟩
  · rw [scope?_store hs, if_neg (Ne.symm hne)]
  · rw [scope?_store hs, if_pos rfl, ← hparent]

/-- A name is bound nowhere from a scope outward. -/
def Unbound (a : Arena) (id : ScopeId) (name : String) : Prop :=
  ∃ ids, a.Walk (·.binds name) id ids none

/-- The scope has one more variable, after all others, which holds a value coerced to its type, and
the name means that variable. -/
def Declares (a b : Arena) (id : ScopeId) (name : String) (type : Tag) (v : Value) : Prop :=
  ∃ w vars, v.coerce type = .ok w ∧ name ∉ vars.map Prod.fst ∧
    a.DiffersIn b id vars (vars ++ [(name, ⟨type, w⟩)]) ∧ b.get id name = .ok w

/-- The first binding of a name from a scope outward holds `w` where it held `old`, in the same
place and with the same type, and `w` is what the name means. -/
def Replaces (a b : Arena) (id : ScopeId) (name : String) (type : Tag) (old w : Value) : Prop :=
  ∃ ids owner front back, a.Walk (·.binds name) id ids (some owner) ∧ name ∉ front.map Prod.fst ∧
    a.DiffersIn b owner (front ++ (name, ⟨type, old⟩) :: back)
      (front ++ (name, ⟨type, w⟩) :: back) ∧
    b.get id name = .ok w

/-- The value of a name around a scope. -/
def getAround (a : Arena) (id : ScopeId) (name : String) : Except ScopeError Value :=
  match a.parent? id with
  | none => .error (.unknown name)
  | some parent => a.get parent name

/-- The first binding of a name from a scope outward is gone, and the name means what it means
around the scope that had it. -/
def Removes (a b : Arena) (id : ScopeId) (name : String) : Prop :=
  ∃ ids owner front var back, a.Walk (·.binds name) id ids (some owner) ∧
    name ∉ front.map Prod.fst ∧
    a.DiffersIn b owner (front ++ (name, var) :: back) (front ++ back) ∧
    b.get id name = a.getAround owner name

/-- Where an operation fails it leaves the arena as it was, and where it succeeds it leaves one with
this property. -/
def Atomic (a : Arena) (r : Except ScopeError Unit × Arena) (P : Arena → Prop) : Prop :=
  (∀ e, r.1 = .error e → r.2 = a) ∧ (r.1 = .ok () → P r.2)

theorem Atomic.error (e : ScopeError) (P : Arena → Prop) : a.Atomic (.error e, a) P :=
  ⟨fun _ _ ↦ rfl, fun hok ↦ by cases hok⟩

theorem Atomic.ok {P : Arena → Prop} (h : P b) : a.Atomic (.ok (), b) P :=
  ⟨fun _ herror ↦ (by cases herror), fun _ ↦ h⟩

/-- A consequence of the property will do as well. -/
theorem Atomic.imp {r : Except ScopeError Unit × Arena} {P Q : Arena → Prop} (h : a.Atomic r P)
    (hPQ : ∀ b, P b → Q b) : a.Atomic r Q :=
  ⟨h.1, fun hok ↦ hPQ _ (h.2 hok)⟩

/-! ### What a name means -/

/-- A lookup that finds a name has walked to its owner. -/
theorem walk_of_lookup (h : a.lookup id name = some (owner, s, var)) :
    ∃ ids, a.Walk (·.binds name) id ids (some owner) := by
  rw [lookup] at h
  obtain ⟨owner', hresolve, h⟩ := Option.bind_eq_some_iff.1 h
  obtain ⟨s', -, h⟩ := Option.bind_eq_some_iff.1 h
  obtain ⟨var', -, h⟩ := Option.bind_eq_some_iff.1 h
  cases h
  exact exists_walk_of_searchFrom hresolve

/-- A walk to the end without finding the name means that a lookup does not find it. -/
theorem Walk.lookup_eq_none {ids : List ScopeId} (h : a.Walk (·.binds name) id ids none) :
    a.lookup id name = none := by
  rw [lookup, h.resolve_eq]
  rfl

/-- A walk to the owner means that a lookup finds it there. -/
theorem Walk.lookup_eq_some {ids : List ScopeId} (h : a.Walk (·.binds name) id ids (some owner))
    (hs : a.scope? owner = some s) (hvar : s.find? name = some var) :
    a.lookup id name = some (owner, s, var) := by
  rw [lookup, h.resolve_eq]
  simp [hs, hvar]

/-- A name means what its owner binds it to. -/
theorem Walk.get_eq_ok {ids : List ScopeId} (h : a.Walk (·.binds name) id ids (some owner))
    (hs : a.scope? owner = some s) (hvar : s.find? name = some var) :
    a.get id name = .ok var.value := by
  rw [get, h.lookup_eq_some hs hvar]

/-- A name that no walk finds means nothing. -/
theorem Walk.get_eq_error {ids : List ScopeId} (h : a.Walk (·.binds name) id ids none) :
    a.get id name = .error (.unknown name) := by
  rw [get, h.lookup_eq_none]

/-- Two searches that end alike find the same value, if the scope they find has the same one. -/
theorem Walk.get_congr {x : ScopeId} {ids ids' : List ScopeId} {found : Option ScopeId}
    (h : a.Walk (·.binds name) x ids found) (h' : b.Walk (·.binds name) id ids' found)
    (hab : ∀ y, found = some y → b.scope? y = a.scope? y) : b.get id name = a.get x name := by
  rcases found with - | owner
  · rw [h.get_eq_error, h'.get_eq_error]
  · obtain ⟨s, hs, hbinds⟩ := h.exists_scope?
    obtain ⟨var, hvar⟩ := Option.isSome_iff_exists.1 hbinds
    rw [h.get_eq_ok hs hvar, h'.get_eq_ok ((hab owner rfl).trans hs) hvar]

/-- Where the links come to an end, a lookup that finds nothing has looked everywhere. -/
theorem unbound_of_lookup (hends : a.Ends id) (h : a.lookup id name = none) :
    a.Unbound id name := by
  obtain ⟨ids, found, hwalk⟩ := hends.exists_walk (·.binds name)
  rcases found with - | owner
  · exact ⟨ids, hwalk⟩
  · obtain ⟨s, hs, hbinds⟩ := hwalk.exists_scope?
    obtain ⟨var, hvar⟩ := Option.isSome_iff_exists.1 hbinds
    rw [hwalk.lookup_eq_some hs hvar] at h
    cases h

/-! ### Writing -/

/-- **Writing to the variable that a name means** is writing to its first binding. -/
theorem replaces_store (h : a.lookup id name = some (owner, s, var)) (w : Value) :
    a.Replaces (a.store owner (s.replace name w)) id name var.type var.value w := by
  obtain ⟨hs, hvar⟩ := scope?_of_lookup h
  obtain ⟨ids, hwalk⟩ := walk_of_lookup h
  obtain ⟨front, back, hvars, hname⟩ := Scope.exists_split_of_find? hvar
  have hvars' : (s.replace name w).vars = front ++ (name, ⟨var.type, w⟩) :: back := by
    rw [Scope.replace, hvars, Scope.replaceIn_split w hname]
  have hdiffers := DiffersIn.store hs hvars (s.replace name w) hvars' rfl
  refine ⟨ids, owner, front, back, hwalk, hname, hdiffers, ?_⟩
  obtain ⟨parent, -, hown⟩ := hdiffers.own
  have hfind : Scope.find? ⟨front ++ (name, ⟨var.type, w⟩) :: back, parent⟩ name =
      some ⟨var.type, w⟩ := Scope.lookup_split hname
  obtain ⟨ids', hwalk'⟩ := hwalk.exists_of_found hdiffers.others
    (.here hown (by rw [Scope.binds, hfind]; rfl))
  exact hwalk'.get_eq_ok hown hfind

/-- A declaration adds a variable at the end of its scope, or fails and changes nothing. -/
theorem atomic_declare (a : Arena) (id : ScopeId) (name : String) (type : Tag) (v : Value) :
    a.Atomic (a.declare id name type v) fun b ↦ a.Declares b id name type v := by
  rw [declare]
  rcases hv : v.coerce type with e | w
  · exact .error _ _
  rcases hs : a.scope? id with - | s
  · exact .error _ _
  dsimp only
  split
  · exact .error _ _
  next hbinds =>
    have hname : name ∉ s.vars.map Prod.fst := by rwa [← Scope.binds_iff]
    have hdiffers : a.DiffersIn (a.store id (s.insert name ⟨type, w⟩)) id s.vars
        (s.vars ++ [(name, ⟨type, w⟩)]) := .store hs rfl _ rfl rfl
    refine .ok ⟨w, s.vars, hv, hname, hdiffers, ?_⟩
    obtain ⟨parent, -, hown⟩ := hdiffers.own
    have hfind : Scope.find? ⟨s.vars ++ [(name, ⟨type, w⟩)], parent⟩ name = some ⟨type, w⟩ :=
      Scope.lookup_split hname
    exact (Walk.here hown (by rw [Scope.binds, hfind]; rfl)).get_eq_ok hown hfind

/-- To set a name coerces to the type that was declared, and keeps it. -/
theorem atomic_set (a : Arena) (id : ScopeId) (name : String) (v : Value) :
    a.Atomic (a.set id name v) fun b ↦
      ∃ type old w, v.coerce type = .ok w ∧ a.Replaces b id name type old w := by
  rw [set]
  rcases hlookup : a.lookup id name with - | ⟨owner, s, var⟩
  · exact .error _ _
  dsimp only
  rcases hv : v.coerce var.type with e | w
  · exact .error _ _
  · exact .ok ⟨_, _, w, hv, replaces_store hlookup w⟩

theorem lookup_eq_none_of_resolve (h : a.resolve id name = none) : a.lookup id name = none := by
  rw [lookup, h]
  rfl

/-- Assignment sets a name that is bound, and declares one that is not. -/
theorem atomic_assign (hends : a.Ends id) (name : String) (v : Value) :
    a.Atomic (a.assign id name v) fun b ↦
      (∃ type old w, v.coerce type = .ok w ∧ a.Replaces b id name type old w) ∨
        a.Unbound id name ∧ a.Declares b id name .auto v := by
  rw [assign]
  rcases hresolve : a.resolve id name with - | owner
  · have hunbound := unbound_of_lookup hends (lookup_eq_none_of_resolve hresolve)
    exact (a.atomic_declare id name .auto v).imp fun b hb ↦ .inr ⟨hunbound, hb⟩
  · exact (a.atomic_set id name v).imp fun b hb ↦ .inl hb

/-- To set an item replaces that item and no other one. -/
theorem atomic_setIndex (a : Arena) (id : ScopeId) (name : String) (i item : Value) :
    a.Atomic (a.update id name (·.setIndex i item)) fun b ↦
      ∃ n type before old after, i.toInt64 = .ok n ∧ n.toInt = List.length before ∧
        a.Replaces b id name type (.list (before ++ old :: after))
          (.list (before ++ item :: after)) := by
  rw [update]
  rcases hlookup : a.lookup id name with - | ⟨owner, s, ⟨type, container⟩⟩
  · exact .error _ _
  dsimp only
  rcases hw : container.setIndex i item with e | w
  · exact .error _ _
  · obtain ⟨n, before, old, after, hn, hlength, rfl, rfl⟩ := Value.exists_of_setIndex hw
    exact .ok ⟨n, type, before, old, after, hn, hlength, replaces_store hlookup _⟩

/-! ### Deleting -/

/-- **Deleting uncovers** what the name means around the scope that had it. -/
theorem removes_store (hends : a.Ends id) (hdistinct : a.All Scope.Distinct)
    (h : a.lookup id name = some (owner, s, var)) :
    a.Removes (a.store owner (s.erase name)) id name := by
  obtain ⟨hs, hvar⟩ := scope?_of_lookup h
  obtain ⟨ids, hwalk⟩ := walk_of_lookup h
  obtain ⟨front, back, hvars, hname⟩ := Scope.exists_split_of_find? hvar
  have hvars' : (s.erase name).vars = front ++ back := by
    rw [Scope.erase, hvars, Scope.eraseP_split hname]
  have hdiffers := DiffersIn.store hs hvars (s.erase name) hvars' rfl
  refine ⟨ids, owner, front, var, back, hwalk, hname, hdiffers, ?_⟩
  obtain ⟨parent, hown, hown'⟩ := hdiffers.own
  -- Names are bound once, so the scope does not bind it again further on.
  have hgone : Scope.binds ⟨front ++ back, parent⟩ name = false := by
    rw [Bool.eq_false_iff, ne_eq, Scope.binds_iff]
    exact Scope.not_mem_of_distinct (hdistinct owner _ hown)
  rw [getAround, parent?_eq hown]
  rcases parent with - | p
  · obtain ⟨ids', hwalk'⟩ := hwalk.exists_of_found hdiffers.others (.outermost hown' hgone rfl)
    exact hwalk'.get_eq_error
  · -- The search goes on around the scope, and the links from there do not lead back to it.
    have howner := hends.of_leads (hwalk.leads hwalk.mem_found)
    have hp : a.parent? owner = some p := parent?_eq hown
    obtain ⟨rest, found, hrest⟩ := (howner.outward hp).exists_walk (·.binds name)
    have hsame : ∀ x ∈ rest, (a.store owner (s.erase name)).scope? x = a.scope? x := by
      intro x hx
      refine hdiffers.others x ?_
      rintro rfl
      exact howner.not_leads hp (hrest.leads hx)
    have hrest' := hrest.congr hsame
    obtain ⟨ids', hwalk'⟩ := hwalk.exists_of_found hdiffers.others (.outward hown' hgone rfl hrest')
    refine hrest.get_congr hwalk' fun y hy ↦ ?_
    subst hy
    exact hsame y hrest.mem_found

theorem unset_cases (hends : a.Ends id) (hdistinct : a.All Scope.Distinct) (name : String) :
    (a.Unbound id name ∧ a.unset id name = (false, a)) ∨
      ((a.unset id name).1 = true ∧ a.Removes (a.unset id name).2 id name) := by
  rw [unset]
  rcases hlookup : a.lookup id name with - | ⟨owner, s, var⟩
  · exact .inl ⟨unbound_of_lookup hends hlookup, rfl⟩
  · exact .inr ⟨rfl, removes_store hends hdistinct hlookup⟩

/-! ### Names that are bound once -/

theorem All.distinct_after (h : a.All Scope.Distinct) (access : Access) :
    (a.after access).All Scope.Distinct := by
  have hP := Scope.invariant_distinct
  cases access with
  | push parent => exact h.push hP parent
  | release id => exact h.release id
  | unset id name => exact h.edits hP (a.edits_unset id name)
  | get | snapshot => exact h
  | change id c =>
    cases c with
    | declare name type v => exact h.edits hP (a.edits_declare id name type v)
    | set name v => exact h.edits hP (a.edits_set id name v)
    | assign name v => exact h.edits hP (a.edits_assign id name v)
    | update name f =>
      -- A change without coercion may break the type of a variable, but not its name.
      rw [after, Change.inArena, update]
      rcases hlookup : a.lookup id name with - | ⟨owner, s, var⟩
      · exact h
      dsimp only
      rcases f var.value with e | w
      · exact h
      · have hs := (scope?_of_lookup hlookup).1
        exact h.store hs ((h owner s hs).sublist (Scope.Remains.replace s name w).names)

/-- **Every history** leads to an arena whose scopes bind each name once. -/
theorem all_distinct_afterAll (accesses : List Access) :
    (new.afterAll accesses).All Scope.Distinct := by
  suffices ∀ a : Arena, a.All Scope.Distinct → (a.afterAll accesses).All Scope.Distinct from
    this new (.new Scope.invariant_distinct)
  induction accesses with
  | nil => exact fun _ h ↦ h
  | cons access accesses ih => exact fun a h ↦ ih _ (h.distinct_after access)

/-! ### All five -/

/-- **Variables change one at a time.** From a scope whose links end, in an arena whose scopes bind
each name once: declaring, setting, assigning and setting an item leave the arena as it was where
they fail, and where they succeed only one binding differs, which the name then means. It is a new
one in the scope itself where a name is declared, and else the first binding of the name outward, of
which only one item differs where an item is set. Deleting takes just that first binding away, and
then the name means what it means around there; it finds none only if there is none. -/
theorem atomic_and_removes (hends : a.Ends id) (hdistinct : a.All Scope.Distinct) (name : String) :
    (∀ type v, a.Atomic (a.declare id name type v) (a.Declares · id name type v)) ∧
      (∀ v, a.Atomic (a.set id name v) fun b ↦
        ∃ type old w, v.coerce type = .ok w ∧ a.Replaces b id name type old w) ∧
      (∀ v, a.Atomic (a.assign id name v) fun b ↦
        (∃ type old w, v.coerce type = .ok w ∧ a.Replaces b id name type old w) ∨
          a.Unbound id name ∧ a.Declares b id name .auto v) ∧
      (∀ i item, a.Atomic (a.update id name (·.setIndex i item)) fun b ↦
        ∃ n type before old after, i.toInt64 = .ok n ∧ n.toInt = List.length before ∧
          a.Replaces b id name type (.list (before ++ old :: after))
            (.list (before ++ item :: after))) ∧
      ((a.Unbound id name ∧ a.unset id name = (false, a)) ∨
        ((a.unset id name).1 = true ∧ a.Removes (a.unset id name).2 id name)) :=
  ⟨a.atomic_declare id name, a.atomic_set id name, atomic_assign hends name,
    a.atomic_setIndex id name, unset_cases hends hdistinct name⟩

/-- A list in an inner scope covers a number of the same name. -/
def covered : Arena :=
  new.afterAll [.change 0 (.declare "x" .int (.int 1)), .push 0,
    .change 1 (.declare "x" .auto (.list [.int 2, .int 3]))]

theorem atomic_and_removes_covered :
    covered.Ends 1 ∧ covered.All Scope.Distinct ∧
      (covered.update 1 "x" (·.setIndex (.bool true) .null)).1 = .ok () ∧
      (∃ n type before old after, Value.toInt64 (.bool true) = .ok n ∧
        n.toInt = List.length before ∧
        covered.Replaces (covered.update 1 "x" (·.setIndex (.bool true) .null)).2 1 "x" type
          (.list (before ++ old :: after)) (.list (before ++ .null :: after))) ∧
      covered.Removes (covered.unset 1 "x").2 1 "x" := by
  have hends : covered.Ends 1 := by
    have hwalk : covered.Walk (fun _ ↦ false) 1 [1, 0] none :=
      .outward rfl rfl rfl (.outermost rfl rfl rfl)
    exact hwalk.ends
  have hdistinct : covered.All Scope.Distinct := all_distinct_afterAll _
  obtain ⟨-, -, -, hitem, hunset⟩ := atomic_and_removes hends hdistinct "x"
  have hok : (covered.update 1 "x" (·.setIndex (.bool true) .null)).1 = .ok () := rfl
  refine ⟨hends, hdistinct, hok, (hitem (.bool true) .null).2 hok, ?_⟩
  rcases hunset with ⟨-, hfalse⟩ | ⟨-, hremoves⟩
  · cases congrArg Prod.fst hfalse
  · exact hremoves

end Arena

end Scriptlet
