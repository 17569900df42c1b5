import Mathlib.Logic.Relation
import Scriptlet.Proofs.Scope.Stack
import Scriptlet.Value.Operators

/-!
# What becomes of the variables in an arena

Declaring, assigning, changing an item and deleting are four operations with their own ways to fail,
but they leave only three kinds of mark on an arena: a scope has **one more name**, a name has
**another value**, or a scope has **one name less**. `Arena.Edits` lists these, with what is known
of the variable each time, so that whatever is kept by all operations on variables is shown for
three.

While no name is added, a scope **remains**: its parent is the same, and its names are some of those
it had, in their order and with their types. In every arena the names of a scope are bound once.

Nothing is asked of the arena here. Handles may be stale, and slots may be listed as free that are
not.
-/

namespace Scriptlet

/-- A variable holds a value of its declared type, if it is declared with one. -/
def Var.Fits (v : Var) : Prop :=
  v.type ≠ .auto → v.value.tag = v.type

/-- A value that was coerced fits. -/
theorem Var.fits_of_coerce {v w : Value} {type : Tag} (h : v.coerce type = .ok w) :
    Var.Fits ⟨type, w⟩ :=
  fun hne ↦ Value.tag_of_coerce hne h

/-- An item is set in a list, and a list is what becomes of it. -/
theorem Value.tag_of_setIndex {container i item v : Value}
    (h : container.setIndex i item = .ok v) : v.tag = container.tag := by
  cases container with
  | list items =>
    rw [setIndex] at h
    rcases hplace : place i items.length with e | k <;> rw [hplace] at h <;> cases h
    rfl
  | _ => cases h

namespace Arena

variable {a a' : Arena} {id owner : ScopeId} {s : Scope} {name : String} {var : Var} {v : Value}

/-- An operation on variables in a scope leaves this arena behind: nothing is changed, the scope has
a new name, or some scope has another value for a name, or lost a name. -/
inductive Edits (a : Arena) (id : ScopeId) : Arena → Prop where
  | same : Edits a id a
  | insert {s : Scope} {name : String} {var : Var} (hs : a.scope? id = some s)
      (hname : s.find? name = none) (hfits : var.Fits) :
      Edits a id (a.store id (s.insert name var))
  | replace {owner : ScopeId} {s : Scope} {name : String} {var : Var} {value : Value}
      (hs : a.scope? owner = some s) (hvar : s.find? name = some var)
      (hfits : var.Fits → Var.Fits ⟨var.type, value⟩) :
      Edits a id (a.store owner (s.replace name value))
  | erase {owner : ScopeId} {s : Scope} {name : String} (hs : a.scope? owner = some s) :
      Edits a id (a.store owner (s.erase name))

/-- What a lookup finds is in the scope that it names. -/
theorem scope?_of_lookup (h : a.lookup id name = some (owner, s, var)) :
    a.scope? owner = some s ∧ s.find? name = some var := by
  rw [lookup] at h
  obtain ⟨owner', -, h⟩ := Option.bind_eq_some_iff.1 h
  obtain ⟨s', hs, h⟩ := Option.bind_eq_some_iff.1 h
  obtain ⟨var', hvar, h⟩ := Option.bind_eq_some_iff.1 h
  cases h
  exact ⟨hs, hvar⟩

/-! ### The operations on variables -/

/-- A declaration adds a name to its scope, or changes nothing. -/
theorem edits_declare (a : Arena) (id : ScopeId) (name : String) (type : Tag) (v : Value) :
    a.Edits id (a.declare id name type v).2 := by
  rw [declare]
  rcases hv : v.coerce type with e | w
  · exact .same
  · rcases hs : a.scope? id with - | s
    · exact .same
    · dsimp only
      split
      · exact .same
      · rename_i hbinds
        exact .insert hs (Option.not_isSome_iff_eq_none.1 hbinds) (Var.fits_of_coerce hv)

/-- To set a variable changes a value in some scope, or nothing. -/
theorem edits_set (a : Arena) (id : ScopeId) (name : String) (v : Value) :
    a.Edits id (a.set id name v).2 := by
  rw [set]
  rcases hlookup : a.lookup id name with - | ⟨owner, s, var⟩
  · exact .same
  · obtain ⟨hs, hvar⟩ := scope?_of_lookup hlookup
    dsimp only
    rcases hv : v.coerce var.type with e | w
    · exact .same
    · exact .replace hs hvar fun _ ↦ Var.fits_of_coerce hv

/-- Assignment sets a variable or declares it. -/
theorem edits_assign (a : Arena) (id : ScopeId) (name : String) (v : Value) :
    a.Edits id (a.assign id name v).2 := by
  rw [assign]
  split
  · exact a.edits_set id name v
  · exact a.edits_declare id name .auto v

/-- To unset a variable takes a name from some scope, or changes nothing. -/
theorem edits_unset (a : Arena) (id : ScopeId) (name : String) :
    a.Edits id (a.unset id name).2 := by
  rw [unset]
  rcases hlookup : a.lookup id name with - | ⟨owner, s, var⟩
  · exact .same
  · exact .erase (scope?_of_lookup hlookup).1

/-- A change that keeps the tag of a value needs no coercion. -/
theorem edits_update {f : Value → Except ValueError Value}
    (hf : ∀ v w, f v = .ok w → w.tag = v.tag) (a : Arena) (id : ScopeId) (name : String) :
    a.Edits id (a.update id name f).2 := by
  rw [update]
  rcases hlookup : a.lookup id name with - | ⟨owner, s, var⟩
  · exact .same
  · obtain ⟨hs, hvar⟩ := scope?_of_lookup hlookup
    dsimp only
    rcases hw : f var.value with e | w
    · exact .same
    · exact .replace hs hvar fun hfits hne ↦ (hf _ _ hw).trans (hfits hne)

/-! ### Slots after an operation -/

/-- To store a scope replaces it in its slot only. -/
theorem scope?_store (hs : a.scope? owner = some s) (s' : Scope) (id : ScopeId) :
    (a.store owner s').scope? id = if owner = id then some s' else a.scope? id := by
  rw [store, scope?_setIfInBounds]
  simp only [lt_size_of_scope? hs, and_true]

/-- The scopes behind an opened one are those before, and an empty one. -/
theorem scope?_of_push {parent : ScopeId} (h : (a.push parent).2.scope? id = some s) :
    s = .empty (some parent) ∨ a.scope? id = some s := by
  unfold push at h
  split at h
  · rw [scope?_setIfInBounds] at h
    split at h
    · exact .inl (Option.some.inj h).symm
    · exact .inr h
  · unfold scope? at h ⊢
    rw [Array.getElem?_push] at h
    split at h
    · exact .inl (Option.some.inj h).symm
    · exact .inr h

/-- What is there after a release was there before. -/
theorem scope?_of_release {other : ScopeId} (h : (a.release other).2.scope? id = some s) :
    a.scope? id = some s := by
  unfold release at h
  split at h
  · exact h
  · split at h
    · exact h
    · rw [scope?_setIfInBounds] at h
      split at h
      · cases h
      · exact h

theorem scope?_of_releaseTo {base other : ScopeId} {bound : Nat}
    (h : (a.releaseTo base bound other).scope? id = some s) : a.scope? id = some s := by
  induction bound generalizing a other with
  | zero => exact h
  | succ bound ih =>
    have hrelease := @scope?_of_release a id s other
    rw [releaseTo] at h
    generalize a.release other = r at h hrelease
    rcases r with ⟨- | parent, b⟩
    · exact hrelease h
    · dsimp only at h
      split at h
      · exact hrelease h
      · exact hrelease (ih h)

/-! ### Properties of all scopes -/

/-- Every scope of an arena has a property. -/
def All (P : Scope → Prop) (a : Arena) : Prop :=
  ∀ id s, a.scope? id = some s → P s

end Arena

/-- A property that an empty scope has, and that a scope keeps with one more name, another value for
a name, or one name less. -/
structure Scope.Invariant (P : Scope → Prop) : Prop where
  empty : ∀ parent, P (.empty parent)
  insert : ∀ s name var, P s → s.find? name = none → var.Fits → P (s.insert name var)
  replace : ∀ s name var value, P s → s.find? name = some var →
    (var.Fits → Var.Fits ⟨var.type, value⟩) → P (s.replace name value)
  erase : ∀ s name, P s → P (s.erase name)

/-! ### Scopes that lose names and gain none -/

namespace Scope

variable {s s₁ s₂ : Scope}

/-- The names of a scope with their declared types, in order of declaration. -/
def signature (s : Scope) : List (String × Tag) :=
  s.vars.map fun b ↦ (b.1, b.2.type)

/-- What a scope may become while no name is added to it. -/
structure Remains (s s' : Scope) : Prop where
  parent : s'.parent = s.parent
  signature : s'.signature.Sublist s.signature

namespace Remains

theorem refl (s : Scope) : s.Remains s :=
  ⟨rfl, .refl _⟩

theorem trans (h : s.Remains s₁) (h' : s₁.Remains s₂) : s.Remains s₂ :=
  ⟨h'.parent.trans h.parent, h'.signature.trans h.signature⟩

/-- Another value keeps the name and its type. -/
theorem replace (s : Scope) (name : String) (value : Value) : s.Remains (s.replace name value) := by
  have hsame : ∀ vars : Vars, (replaceIn name value vars).map (fun b ↦ (b.1, b.2.type)) =
      vars.map fun b ↦ (b.1, b.2.type) := by
    intro vars
    induction vars with
    | nil => rfl
    | cons b vars ih =>
      rw [replaceIn]
      split
      · rfl
      · rw [List.map_cons, List.map_cons, ih]
  refine ⟨rfl, ?_⟩
  rw [Scope.signature, Scope.replace, hsame]
  exact .refl _

theorem erase (s : Scope) (name : String) : s.Remains (s.erase name) :=
  ⟨rfl, List.eraseP_sublist.map _⟩

/-- The names that remain are in the same order. -/
theorem names (h : s.Remains s₁) : (s₁.vars.map Prod.fst).Sublist (s.vars.map Prod.fst) := by
  have hfst (s : Scope) : s.vars.map Prod.fst = s.signature.map Prod.fst := by
    rw [Scope.signature, List.map_map]
    rfl
  rw [hfst, hfst]
  exact h.signature.map Prod.fst

end Remains

/-- The names of a scope are bound once. -/
def Distinct (s : Scope) : Prop :=
  (s.vars.map Prod.fst).Nodup

/-- A name is added only where it is not bound. -/
theorem invariant_distinct : Invariant Distinct where
  empty _ := List.nodup_nil
  insert s name var hs hname _ := by
    have hnot : name ∉ s.vars.map Prod.fst := by
      rintro hmem
      obtain ⟨b, hb, rfl⟩ := List.mem_map.1 hmem
      simpa using List.lookup_eq_none_iff.1 hname b hb
    rw [Distinct, Scope.insert, List.map_append]
    exact List.nodup_append'.2 ⟨hs, List.nodup_singleton _, by simpa using hnot⟩
  replace s name _ value hs _ _ := hs.sublist (Remains.replace s name value).names
  erase s name hs := hs.sublist (Remains.erase s name).names

/-- In a scope that binds its names once, a binding is what is found under its name. -/
theorem Distinct.find?_eq (hs : s.Distinct) {name : String} {var : Var}
    (h : (name, var) ∈ s.vars) : s.find? name = some var := by
  obtain ⟨front, back, hvars⟩ := List.append_of_mem h
  rw [Distinct, hvars, List.map_append, List.nodup_append'] at hs
  rw [find?, hvars]
  refine List.lookup_eq_some_iff.2 ⟨front, back, rfl, fun b hb ↦ ?_⟩
  rw [bne_iff_ne]
  rintro rfl
  exact hs.2.2 (List.mem_map_of_mem hb) (List.mem_cons_self)

/-- A variable that remains has the declared type it had. -/
theorem Remains.exists_find? (h : s.Remains s₁) (hs : s.Distinct) {name : String} {var : Var}
    (hvar : s₁.find? name = some var) :
    ∃ var₀, s.find? name = some var₀ ∧ var.type = var₀.type := by
  obtain ⟨front, back, hvars, -⟩ := List.lookup_eq_some_iff.1 hvar
  have hmem : (name, var.type) ∈ s₁.signature :=
    List.mem_map.2 ⟨(name, var), by rw [hvars]; simp, rfl⟩
  obtain ⟨⟨name', var₀⟩, hmem₀, heq⟩ := List.mem_map.1 (h.signature.subset hmem)
  obtain ⟨rfl, htype⟩ := Prod.mk.inj heq
  exact ⟨var₀, hs.find?_eq hmem₀, htype.symm⟩

end Scope

/-! ### Properties of all scopes after an operation -/

namespace Arena.All

variable {P : Scope → Prop} {a a' : Arena} {id : ScopeId}

/-- A scope that is stored must have the property. -/
theorem store {owner : ScopeId} {s s' : Scope} (h : a.All P) (hs : a.scope? owner = some s)
    (hs' : P s') : (a.store owner s').All P := by
  intro x sx hx
  rw [scope?_store hs] at hx
  split at hx
  · cases hx
    exact hs'
  · exact h x sx hx

/-- A property of that kind is kept by every operation on variables. -/
theorem edits (hP : Scope.Invariant P) (h : a.All P) (hedits : a.Edits id a') : a'.All P := by
  cases hedits with
  | same => exact h
  | insert hs hname hfits => exact h.store hs (hP.insert _ _ _ (h _ _ hs) hname hfits)
  | replace hs hvar hfits => exact h.store hs (hP.replace _ _ _ _ (h _ _ hs) hvar hfits)
  | erase hs => exact h.store hs (hP.erase _ _ (h _ _ hs))

theorem editsMany (hP : Scope.Invariant P) (h : a.All P)
    (hedits : Relation.ReflTransGen (fun a a' ↦ a.Edits id a') a a') : a'.All P := by
  induction hedits with
  | refl => exact h
  | tail _ hlast ih => exact ih.edits hP hlast

/-- A new scope is empty, and has it. -/
theorem push (hP : Scope.Invariant P) (h : a.All P) (parent : ScopeId) :
    (a.push parent).2.All P := by
  intro x sx hx
  rcases scope?_of_push hx with rfl | hx
  · exact hP.empty _
  · exact h x sx hx

/-- To release a scope takes away one of those that have it. -/
theorem release (h : a.All P) (other : ScopeId) : (a.release other).2.All P :=
  fun x sx hx ↦ h x sx (scope?_of_release hx)

theorem releaseThrough (h : a.All P) (other base : ScopeId) :
    (a.releaseThrough other base).All P :=
  fun x sx hx ↦ h x sx (scope?_of_releaseTo hx)

/-- The global scope has it at the start. -/
theorem new (hP : Scope.Invariant P) : Arena.new.All P := by
  intro x sx hx
  rcases x with - | x
  · cases hx
    exact hP.empty none
  · simp [Arena.new, scope?] at hx

end Arena.All

end Scriptlet
