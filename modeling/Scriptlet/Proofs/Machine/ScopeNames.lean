import Scriptlet.Proofs.Machine.Outline
import Scriptlet.Proofs.Tree.Names

/-!
# The names bound in scopes

What each operation on a stack of scopes does to the names bound there. Values and types do not
matter to them: only a declaration adds a name, and an assignment to a name that is bound nowhere.
As long as there is a scope to declare something in, only an operation that reads a name can fail
because it is unknown.
-/

namespace Scriptlet

namespace Scopes

variable {scopes scopes' : Scopes} {name : String} {v : Value}

/-- The names bound in nested scopes, the innermost scope first, each in order of declaration. -/
def names (scopes : Scopes) : List (List String) :=
  scopes.map fun vars ↦ vars.map Prod.fst

/-- A variable is found if its name is bound in some scope. -/
theorem isSome_var? (scopes : Scopes) (name : String) :
    (scopes.var? name).isSome ↔ name ∈ scopes.names.flatten := by
  simp [var?, names, List.findSome?_isSome_iff]

/-- Writing to variables keeps their names. -/
theorem map_fst_write (name : String) (w : Value) (vars : Vars) :
    (Vars.write name w vars).map Prod.fst = vars.map Prod.fst := by
  induction vars with
  | nil => rfl
  | cons b vars ih =>
    rw [Vars.write_cons]
    split
    · rfl
    · rw [List.map_cons, List.map_cons, ih]

/-- Another value does not change the names. -/
theorem names_change_write (scopes : Scopes) (name : String) (w : Value) :
    (scopes.change name (Vars.write name w)).names = scopes.names := by
  induction scopes with
  | nil => rfl
  | cons vars scopes ih =>
    rw [change]
    split
    · rw [names, List.map_cons, map_fst_write, names, List.map_cons]
    · exact congrArg (_ :: ·) ih

/-- A declaration adds its name to the innermost scope. -/
theorem names_of_declare {type : Tag} (h : scopes.declare name type v = .ok scopes') :
    scopes'.names = scopes.names.modifyHead (· ++ [name]) := by
  rw [declare] at h
  split at h
  · cases h
  · split at h
    · cases h
    · split at h <;> cases h
      simp [names]

/-- A declaration fails for its name only if the innermost scope binds it. -/
theorem exists_mem_of_declare {type : Tag} {name' : String}
    (h : scopes.declare name type v = .error (.alreadyDeclared name')) :
    ∃ block ∈ scopes.names.head?, name ∈ block := by
  rw [declare] at h
  split at h
  · cases h
  · split at h
    · cases h
    · rename_i vars rest
      split at h
      · rename_i hbound
        exact ⟨vars.map Prod.fst, rfl, (isSome_lookup_iff vars name).1 hbound⟩
      · cases h

/-- An update keeps the names. -/
theorem names_of_update {f : Value → Except ValueError Value}
    (h : scopes.update name f = .ok scopes') : scopes'.names = scopes.names := by
  rw [update] at h
  split at h
  · cases h
  · split at h <;> cases h
    exact names_change_write ..

/-- An assignment adds a name that is bound nowhere. -/
theorem names_of_assign (h : scopes.assign name v = .ok scopes') :
    scopes'.names = if name ∈ scopes.names.flatten then scopes.names
      else scopes.names.modifyHead (· ++ [name]) := by
  rw [assign] at h
  split at h
  · rename_i hnone
    have hfree : name ∉ scopes.names.flatten := by
      rw [← isSome_var?, hnone]
      exact Bool.false_ne_true
    rw [if_neg hfree, names_of_declare h]
  · rename_i var hsome
    have hbound : name ∈ scopes.names.flatten := by
      rw [← isSome_var?, hsome]
      rfl
    rw [if_pos hbound]
    split at h <;> cases h
    exact names_change_write ..

/-- An assignment never declares a name twice. -/
theorem assign_ne_alreadyDeclared (name' : String) :
    scopes.assign name v ≠ .error (.alreadyDeclared name') := by
  intro h
  rw [assign] at h
  split at h
  · rename_i hnone
    obtain ⟨block, hblock, hname⟩ := exists_mem_of_declare h
    have hbound : name ∈ scopes.names.flatten :=
      List.mem_flatten.2 ⟨block, List.mem_of_mem_head? hblock, hname⟩
    rw [← isSome_var?, hnone] at hbound
    cases hbound
  · split at h <;> cases h

/-- An update declares nothing. -/
theorem update_ne_alreadyDeclared {f : Value → Except ValueError Value} (name' : String) :
    scopes.update name f ≠ .error (.alreadyDeclared name') := by
  intro h
  rw [update] at h
  split at h
  · cases h
  · split at h <;> cases h

/-- Parameters are bound in the innermost scope. -/
theorem names_of_bindParams {ps : List String} {vs : List Value}
    (h : bindParams scopes ps vs = .ok scopes') :
    scopes'.names = scopes.names.modifyHead (· ++ ps.take vs.length) := by
  fun_induction bindParams scopes ps vs with
  | case1 scopes p ps v vs scopes₁ hdeclare ih =>
    rw [ih h, names_of_declare hdeclare, List.modifyHead_modifyHead]
    congr 1
    funext block
    exact List.append_assoc ..
  | case2 => cases h
  | case3 ps scopes vs hne =>
    cases h
    -- One of the two lists has run out.
    have hnil : ps.take vs.length = [] := by
      cases ps with
      | nil => exact List.take_nil
      | cons p ps =>
        cases vs with
        | nil => rfl
        | cons v vs => exact (hne p ps v vs rfl rfl).elim
    have hid : (fun block : List String ↦ block ++ []) = id := funext List.append_nil
    rw [hnil, hid, List.modifyHead_id, id]

/-- Parameters with different names can be bound in a scope that binds none of them. -/
theorem bindParams_ne_alreadyDeclared {ps : List String} {vs : List Value} (hps : ps.Nodup)
    (hfree : ∀ block ∈ scopes.names.head?, ∀ p ∈ ps, p ∉ block) (name' : String) :
    bindParams scopes ps vs ≠ .error (.alreadyDeclared name') := by
  fun_induction bindParams scopes ps vs with
  | case1 scopes p ps v vs scopes₁ hdeclare ih =>
    rw [List.nodup_cons] at hps
    refine ih hps.2 ?_
    rw [names_of_declare hdeclare]
    generalize scopes.names = names at hfree
    cases names with
    | nil => simp
    | cons block names =>
      simp only [List.modifyHead_cons, List.head?_cons, Option.mem_some_iff, forall_eq'] at hfree ⊢
      intro q hq hmem
      rcases List.mem_append.1 hmem with hmem | hmem
      · exact hfree q (List.mem_cons_of_mem _ hq) hmem
      · exact hps.1 (List.mem_singleton.1 hmem ▸ hq)
  | case2 scopes p ps v vs e hdeclare =>
    intro h
    cases h
    obtain ⟨block, hblock, hmem⟩ := exists_mem_of_declare hdeclare
    exact hfree block hblock p (List.mem_cons_self ..) hmem
  | case3 => nofun

/-! ### Unknown names -/

/-- A declaration looks nothing up. -/
theorem declare_ne_unknown {type : Tag} (hne : scopes ≠ []) (name' : String) :
    scopes.declare name type v ≠ .error (.unknown name') := by
  intro h
  rw [declare] at h
  split at h
  · cases h
  · split at h
    · exact hne rfl
    · split at h <;> cases h

theorem ne_nil_of_declare {type : Tag} (h : scopes.declare name type v = .ok scopes') :
    scopes' ≠ [] := by
  rw [declare] at h
  split at h
  · cases h
  · split at h
    · cases h
    · split at h <;> cases h
      exact List.cons_ne_nil _ _

/-- Assignment declares what it does not find. -/
theorem assign_ne_unknown (hne : scopes ≠ []) (name' : String) :
    scopes.assign name v ≠ .error (.unknown name') := by
  intro h
  rw [assign] at h
  split at h
  · exact declare_ne_unknown hne name' h
  · split at h <;> cases h

/-- An update complains of no name but its own. -/
theorem eq_of_update_eq_unknown {f : Value → Except ValueError Value} {name' : String}
    (h : scopes.update name f = .error (.unknown name')) : name' = name := by
  rw [update] at h
  split at h
  · cases h
    rfl
  · split at h <;> cases h

/-- Parameters are declared, and declarations look nothing up. -/
theorem bindParams_ne_unknown {ps : List String} {vs : List Value} (hne : scopes ≠ [])
    (name' : String) : bindParams scopes ps vs ≠ .error (.unknown name') := by
  fun_induction bindParams scopes ps vs with
  | case1 scopes p ps v vs scopes₁ hdeclare ih => exact ih (ne_nil_of_declare hdeclare)
  | case2 scopes p ps v vs e hdeclare =>
    intro h
    cases h
    exact declare_ne_unknown hne name' hdeclare
  | case3 =>
    intro h
    cases h

end Scopes

end Scriptlet
