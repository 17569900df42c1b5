import Scriptlet.Proofs.Machine.ScopeNames
import Scriptlet.Proofs.Scope.Stack
import Scriptlet.Proofs.Tree.Covers

/-!
# Constants among the open scopes

The cover of a name is what the text knows about it. Here it is held against the scopes of a run,
of which only the binding of this one name in each matters.

What must be true is one-sided: where the cover says that a variable covers a constant, there **is**
a variable (`Cover.Shields`). It need not say so of every variable, and a constant need not be there
yet. A change of the name goes to the first scope that binds it, so it never comes to a constant
whose cover says that it is behind a variable (`Cover.HasConst.touches`).
-/

namespace Scriptlet

/-! ### The bindings of one name -/

/-- What a name is bound to in each scope. -/
def Scopes.bound (scopes : Scopes) (x : String) : List (Option Var) :=
  scopes.map fun vars ↦ vars.lookup x

/-- The first binding is put in place of another, of which `P` is true. -/
inductive Touches (P : Option Var → Prop) : List (Option Var) → List (Option Var) → Prop where
  | nil : Touches P [] []
  | skip {vs vs' : List (Option Var)} (h : Touches P vs vs') : Touches P (none :: vs) (none :: vs')
  | first {v : Var} {v' : Option Var} {vs : List (Option Var)} (h : P v') :
      Touches P (some v :: vs) (v' :: vs)

namespace Scopes

variable {name x : String} {scopes scopes' : Scopes}

theorem lookup_write_of_ne (hne : name ≠ x) (w : Value) (vars : Vars) :
    (Vars.write name w vars).lookup x = vars.lookup x := by
  induction vars with
  | nil => rfl
  | cons b vars ih =>
    obtain ⟨n, v⟩ := b
    rw [Vars.write_cons]
    split
    · rename_i heq
      have hx : (x == n) = false := beq_false_of_ne fun h ↦ hne ((eq_of_beq heq).symm.trans h.symm)
      rw [List.lookup_cons, List.lookup_cons, hx]
    · rw [List.lookup_cons, List.lookup_cons, ih]

/-- Writing to a name binds no other one, and unbinds none. -/
theorem isSome_lookup_write (w : Value) (vars : Vars) :
    ((Vars.write name w vars).lookup x).isSome = (vars.lookup x).isSome := by
  rw [Bool.eq_iff_iff, isSome_lookup_iff, isSome_lookup_iff, map_fst_write]

theorem lookup_eraseP_of_ne (hne : name ≠ x) (vars : Vars) :
    (vars.eraseP fun b ↦ b.1 == name).lookup x = vars.lookup x := by
  induction vars with
  | nil => rfl
  | cons b vars ih =>
    obtain ⟨n, v⟩ := b
    by_cases heq : (n == name) = true
    · have hx : (x == n) = false := beq_false_of_ne fun h ↦ hne ((eq_of_beq heq).symm.trans h.symm)
      rw [List.eraseP_cons_of_pos (by exact heq), List.lookup_cons, hx]
    · rw [List.eraseP_cons_of_neg (by exact heq), List.lookup_cons, List.lookup_cons, ih]

/-- A change that keeps a name in every scope keeps its bindings. -/
theorem bound_change_of_lookup {f : Vars → Vars}
    (hf : ∀ vars : Vars, (f vars).lookup x = vars.lookup x) :
    (scopes.change name f).bound x = scopes.bound x := by
  induction scopes with
  | nil => rfl
  | cons vars scopes ih =>
    rw [change]
    split
    · rw [bound, List.map_cons, hf, bound, List.map_cons]
    · exact congrArg (vars.lookup x :: ·) ih

/-- A change of the name itself touches its first binding. -/
theorem touches_change {f : Vars → Vars} {P : Option Var → Prop}
    (hf : ∀ vars : Vars, (vars.lookup x).isSome → P ((f vars).lookup x)) :
    Touches P (scopes.bound x) ((scopes.change x f).bound x) := by
  induction scopes with
  | nil => exact .nil
  | cons vars scopes ih =>
    rw [change]
    rcases hv : vars.lookup x with - | v
    · rw [if_neg (by simp), bound, List.map_cons, hv, bound, List.map_cons, hv]
      exact .skip ih
    · rw [if_pos (by simp), bound, List.map_cons, hv, bound, List.map_cons]
      exact .first (hf vars (by rw [hv]; rfl))

/-- Declaring a name binds it in the innermost scope, where it was not bound. -/
theorem bound_declare {type : Tag} {v : Value} (h : scopes.declare x type v = .ok scopes') :
    ∃ w vs, v.coerce type = .ok w ∧ scopes.bound x = none :: vs ∧
      scopes'.bound x = some ⟨type, w⟩ :: vs := by
  rw [declare] at h
  split at h
  · cases h
  · rename_i w hw
    split at h
    · cases h
    · rename_i vars rest
      split at h <;> cases h
      rename_i hfree
      rw [Option.not_isSome_iff_eq_none] at hfree
      refine ⟨w, bound rest x, hw, ?_, ?_⟩
      · rw [bound, List.map_cons, hfree, bound]
      · rw [bound, List.map_cons, List.lookup_append, hfree, Option.none_or, List.lookup_cons_self,
          bound]

/-- The declaration of another name keeps the bindings. -/
theorem bound_declare_of_ne {type : Tag} {v : Value} (hne : name ≠ x)
    (h : scopes.declare name type v = .ok scopes') : scopes'.bound x = scopes.bound x := by
  rw [declare] at h
  split at h
  · cases h
  · split at h
    · cases h
    · split at h <;> cases h
      have hx : (x == name) = false := beq_false_of_ne hne.symm
      rw [bound, List.map_cons, List.lookup_append, List.lookup_cons, hx, List.lookup_nil,
        Option.or_none, bound, List.map_cons]

/-- Replacing the value of a name replaces its first binding. -/
theorem bound_replace (scopes : Scopes) (name x : String) (w : Value) :
    name = x ∧ Touches (·.isSome) (scopes.bound x)
        ((scopes.change name (Vars.write name w)).bound x) ∨
      name ≠ x ∧ (scopes.change name (Vars.write name w)).bound x = scopes.bound x := by
  by_cases hne : name = x
  · subst hne
    refine .inl ⟨rfl, touches_change fun vars hv ↦ ?_⟩
    rwa [isSome_lookup_write]
  · exact .inr ⟨hne, bound_change_of_lookup (lookup_write_of_ne hne w)⟩

end Scopes

/-! ### Variables that cover constants -/

namespace Cover

variable {k k' : Cover} {vs vs' : List (Option Var)} {P : Option Var → Prop}

/-- Where a variable should cover a constant, there is one. -/
def Shields : Cover → List (Option Var) → Prop :=
  List.Forall₂ fun b v ↦ b = some .mutable → v.isSome

namespace Shields

/-- Where less is covered there is less to shield. -/
theorem fades (h : k.Shields vs) (hk : k.Fades k') : k'.Shields vs := by
  induction hk generalizing vs with
  | nil => exact h
  | cons hb _ ih =>
    cases h with
    | cons hv h =>
      refine .cons ?_ (ih h)
      rcases hb with rfl | ⟨-, rfl⟩
      · exact hv
      · exact nofun

/-- A variable may get another value. -/
theorem touches (h : k.Shields vs) (ht : Touches (·.isSome) vs vs') : k.Shields vs' := by
  induction ht generalizing k with
  | nil => exact h
  | skip _ ih =>
    cases h with
    | cons hv h => exact .cons hv (ih h)
  | first hv' =>
    cases h with
    | cons hv h => exact .cons (fun _ ↦ hv') h

/-- A variable may be removed, if it is said so. -/
theorem forget (h : k.Shields vs) (hk : first? k ≠ some .constant) (ht : Touches P vs vs') :
    Shields (Cover.forget k) vs' := by
  induction ht generalizing k with
  | nil =>
    cases h
    exact .nil
  | skip _ ih =>
    rcases h with - | ⟨hv, h⟩
    rename_i b k
    rcases b with - | (- | -)
    · exact .cons nofun (ih h hk)
    · cases hv rfl
    · exact absurd rfl hk
  | first =>
    rcases h with - | ⟨hv, h⟩
    rename_i b k
    rcases b with - | (- | -)
    · exact .cons nofun (fades h (fades_forget hk))
    · exact .cons nofun h
    · exact absurd rfl hk

/-- The innermost scope may bind the name. -/
theorem bind (h : k.Shields (none :: vs)) (b : Option Binding) (v : Var) :
    Shields (b :: k.tail) (some v :: vs) := by
  cases h with
  | cons _ h => exact .cons (fun _ ↦ rfl) h

end Shields

/-! ### Constants that are there -/

/-- The scope in a slot is one of these, and it binds the name as a constant to a variable. -/
inductive HasConst (slot : ScopeId) (var : Var) :
    Cover → List ScopeId → List (Option Var) → Prop where
  | here {k : Cover} {ids : List ScopeId} {vs : List (Option Var)} :
      HasConst slot var (some .constant :: k) (slot :: ids) (some var :: vs)
  | outer {b : Option Binding} {k : Cover} {id : ScopeId} {ids : List ScopeId} {v : Option Var}
      {vs : List (Option Var)} (h : HasConst slot var k ids vs) :
      HasConst slot var (b :: k) (id :: ids) (v :: vs)

namespace HasConst

variable {slot id : ScopeId} {var : Var} {ids : List ScopeId}

/-- The constant is found in its slot. -/
theorem find? {a : Arena} {scopes : Scopes} {x : String} (hchain : a.Chain ids scopes)
    (h : HasConst slot var k ids (scopes.bound x)) :
    (a.scope? slot).bind (·.find? x) = some var := by
  induction hchain generalizing k with
  | nil => cases h
  | @cons id ids vars scopes hscope _ ih =>
    rw [Scopes.bound, List.map_cons] at h
    generalize hv : vars.lookup x = v at h
    cases h with
    | here =>
      rw [hscope, Option.bind_some]
      exact hv
    | outer h => exact ih h

/-- A constant is still one where others are uncovered. -/
theorem fades (h : HasConst slot var k ids vs) (hk : k.Fades k') : HasConst slot var k' ids vs := by
  induction h generalizing k' with
  | here =>
    rcases hk with - | ⟨rfl | ⟨hb, -⟩, hk⟩
    · exact .here
    · cases hb
  | outer _ ih =>
    cases hk with
    | cons _ hk => exact .outer (ih hk)

/-- A change of the name **does not come to the constant**, unless the constant is what the name
means according to the text. -/
theorem touches (h : HasConst slot var k ids vs) (hs : k.Shields vs)
    (hk : first? k ≠ some .constant) (ht : Touches P vs vs') : HasConst slot var k ids vs' := by
  induction h generalizing vs' with
  | here => exact absurd rfl hk
  | @outer b k id ids v vs h ih =>
    cases ht with
    | first => exact .outer h
    | skip ht =>
      cases hs with
      | cons hv hs =>
        -- No variable is here, so none is said to be, and what the name means is further out.
        rcases b with - | (- | -)
        · exact .outer (ih hs hk ht)
        · cases hv rfl
        · exact absurd rfl hk

/-- The innermost scope may bind the name, if it did not. -/
theorem bind (h : HasConst slot var k ids (none :: vs)) (b : Option Binding) (v : Option Var) :
    HasConst slot var (b :: k.tail) ids (v :: vs) := by
  cases h with
  | outer h => exact .outer h

/-- Another scope may be closed. -/
theorem exit (h : HasConst slot var k (id :: ids) vs) (hne : slot ≠ id) :
    HasConst slot var k.tail ids vs.tail := by
  cases h with
  | here => exact absurd rfl hne
  | outer h => exact h

end HasConst

/-- With another cover and other bindings in the same scopes, the constants that were there still
are. -/
structure Keeps (k : Cover) (vs : List (Option Var)) (k' : Cover) (vs' : List (Option Var)) :
    Prop where
  shields : k'.Shields vs'
  hasConst : ∀ {slot var ids}, HasConst slot var k ids vs → HasConst slot var k' ids vs'

namespace Keeps

/-- With nothing changed the constants are still there. -/
theorem refl (h : k.Shields vs) : k.Keeps vs k vs :=
  ⟨h, id⟩

theorem fades {k'' : Cover} (h : k.Keeps vs k' vs') (hk : k'.Fades k'') : k.Keeps vs k'' vs' :=
  ⟨h.shields.fades hk, fun hs ↦ (h.hasConst hs).fades hk⟩

variable {name x : String} {scopes scopes' : Scopes}

/-- A declaration is a new binding in the innermost scope, where there was none. -/
theorem declare {type : Tag} {v : Value} (hs : k.Shields (scopes.bound x)) (b : Option Binding)
    (h : scopes.declare x type v = .ok scopes') :
    k.Keeps (scopes.bound x) (b :: k.tail) (scopes'.bound x) := by
  obtain ⟨w, vs, -, hbound, hbound'⟩ := Scopes.bound_declare h
  rw [hbound] at hs ⊢
  rw [hbound']
  exact ⟨hs.bind b _, fun h ↦ h.bind b _⟩

theorem declare_of_ne {type : Tag} {v : Value} (hs : k.Shields (scopes.bound x)) (hne : name ≠ x)
    (h : scopes.declare name type v = .ok scopes') :
    k.Keeps (scopes.bound x) k (scopes'.bound x) := by
  rw [Scopes.bound_declare_of_ne hne h]
  exact refl hs

/-- To write to a name that does not mean a constant leaves the constants alone. -/
theorem replace (hs : k.Shields (scopes.bound x)) (hk : name = x → first? k ≠ some .constant)
    (w : Value) :
    k.Keeps (scopes.bound x) k ((scopes.change name (Vars.write name w)).bound x) := by
  rcases scopes.bound_replace name x w with ⟨heq, ht⟩ | ⟨-, hsame⟩
  · exact ⟨hs.touches ht, fun h ↦ h.touches hs (hk heq) ht⟩
  · rw [hsame]
    exact refl hs

theorem update {f : Value → Except ValueError Value} (hs : k.Shields (scopes.bound x))
    (hk : name = x → first? k ≠ some .constant) (h : scopes.update name f = .ok scopes') :
    k.Keeps (scopes.bound x) k (scopes'.bound x) := by
  rw [Scopes.update] at h
  split at h
  · cases h
  · split at h <;> cases h
    exact replace hs hk _

/-- The same for assignment, which may also declare the name. -/
theorem assign {v : Value} (hs : k.Shields (scopes.bound x))
    (hk : name = x → first? k ≠ some .constant) (h : scopes.assign name v = .ok scopes') :
    k.Keeps (scopes.bound x) k (scopes'.bound x) := by
  rw [Scopes.assign] at h
  split at h
  · by_cases hne : name = x
    · subst hne
      obtain ⟨b, hcover⟩ : ∃ b, b :: k.tail = k := by
        obtain ⟨-, vs, -, hbound, -⟩ := Scopes.bound_declare h
        rw [hbound] at hs
        cases hs
        exact ⟨_, rfl⟩
      have hkeeps := declare hs b h
      rwa [hcover] at hkeeps
    · exact declare_of_ne hs hne h
  · split at h <;> cases h
    exact replace hs hk _

/-- To unset a variable uncovers what it covers. -/
theorem unset (hs : k.Shields (scopes.bound x)) (hk : first? k ≠ some .constant) :
    k.Keeps (scopes.bound x) (forget k) ((scopes.unset x).bound x) := by
  have ht : Touches (fun _ ↦ True) (scopes.bound x) ((scopes.unset x).bound x) :=
    Scopes.touches_change fun _ _ ↦ trivial
  exact ⟨hs.forget hk ht, fun h ↦ (h.touches hs hk ht).fades (fades_forget hk)⟩

theorem unset_of_ne (hs : k.Shields (scopes.bound x)) (hne : name ≠ x) :
    k.Keeps (scopes.bound x) k ((scopes.unset name).bound x) := by
  rw [Scopes.unset, Scopes.bound_change_of_lookup (Scopes.lookup_eraseP_of_ne hne)]
  exact refl hs

end Keeps

end Cover

end Scriptlet
