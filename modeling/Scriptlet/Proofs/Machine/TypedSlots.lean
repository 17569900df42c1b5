import Scriptlet.Proofs.Machine.Shifts

/-!
# Typed slots hold their type

A value is coerced where it is declared and where it is assigned, to the type **of the variable**
each time. Setting an item of a list goes around that, names are deleted and declared again with
another type, and slots are vacated and taken again. Nothing of this leads to a variable whose value
is not of its declared type: not in any state of a run, not where the run ends, and not behind an
instruction that failed.
-/

namespace Scriptlet

namespace Scope

/-- Every variable of the scope holds a value of its declared type. -/
def Typed (s : Scope) : Prop :=
  ∀ b ∈ s.vars, b.2.Fits

/-- The variable that is given another value is the first of its name. -/
theorem fits_of_mem_replaceIn {name : String} {var : Var} {value : Value} {vars : Vars}
    (hvars : ∀ b ∈ vars, b.2.Fits) (hvar : vars.lookup name = some var)
    (hfits : var.Fits → Var.Fits ⟨var.type, value⟩) :
    ∀ b ∈ replaceIn name value vars, b.2.Fits := by
  induction vars with
  | nil => cases hvar
  | cons b vars ih =>
    obtain ⟨n, v⟩ := b
    rw [List.forall_mem_cons] at hvars
    rw [replaceIn]
    by_cases hn : n = name
    · subst hn
      obtain rfl : v = var := by simpa using hvar
      rw [if_pos (beq_self_eq_true n)]
      exact List.forall_mem_cons.2 ⟨hfits hvars.1, hvars.2⟩
    · have hlookup : vars.lookup name = some var := by
        rwa [List.lookup_cons, beq_false_of_ne (Ne.symm hn)] at hvar
      rw [if_neg (by simpa using hn)]
      exact List.forall_mem_cons.2 ⟨hvars.1, ih hvars.2 hlookup⟩

/-- Values are coerced whenever they are written. -/
theorem invariant_typed : Invariant Typed where
  empty _ := nofun
  insert s name var hs _ hfits := by
    rw [Typed, insert, List.forall_mem_append, List.forall_mem_singleton]
    exact ⟨hs, hfits⟩
  replace s name var value hs hvar hfits := fits_of_mem_replaceIn hs hvar hfits
  erase s name hs := fun b hb ↦ hs b (List.mem_of_mem_eraseP hb)

end Scope

/-- **Typed slots hold their type**, for every image, every host and all limits: whatever state a
run comes to or ends in, every variable that is declared with a type in a scope that lives holds a
value of that type. -/
theorem tag_value_eq_type_of_runFor (image : Image) (table : Table) (limits : Limits) (count : Nat)
    {id : ScopeId} {scope : Scope} {name : String} {var : Var}
    (hscope : ((Machine.ofImage image table limits).runFor count
      (Machine.ofImage image table limits).start).state.arena.scope? id = some scope)
    (hvar : (name, var) ∈ scope.vars) (htype : var.type ≠ .auto) : var.value.tag = var.type := by
  have hall := (Machine.ofImage image table limits).all_of_runFor_start Scope.invariant_typed count
  exact hall id scope hscope (name, var) hvar htype

/-- Declares a list and a truth value, sets an item of the list, and calls a function that assigns a
text to the truth value. -/
def assignsFromCall : Image where
  bytes := ([.pushInt 5, .makeList 1, .decl "xs" .list, .pushBool false, .decl "b" .bool,
    .pushInt 0, .pushStr "one", .setIndex "xs", .call "f" 0, .halt, .pushStr "two", .set "b",
    .retVoid].foldl Buffer.emit Buffer.new).bytes
  tableOffset := 149
  mainEntry := 32
  functions := [⟨"f", 126, true, false, .int, []⟩]

/-- The text that the function assigns is stored as a truth value. -/
theorem tag_value_eq_type_assignsFromCall :
    ∃ scope xs b, ((Machine.ofImage assignsFromCall .empty {}).runFor 12
        (Machine.ofImage assignsFromCall .empty {}).start).state.arena.scope? Arena.global =
          some scope ∧
      scope.vars = [("xs", xs), ("b", b)] ∧ xs.type = .list ∧ xs.value.tag = .list ∧
      b.type = .bool ∧ b.value.tag = .bool := by
  have hruns : (((Machine.ofImage assignsFromCall .empty {}).runFor 12
      (Machine.ofImage assignsFromCall .empty {}).start).state.arena.scope? Arena.global).map
        (·.vars.map fun b ↦ (b.1, b.2.type)) = some [("xs", .list), ("b", .bool)] := by
    decide +kernel
  obtain ⟨scope, hscope, htypes⟩ := Option.map_eq_some_iff.1 hruns
  obtain ⟨⟨x, xs⟩, _, hvars, hx, htypes⟩ := List.map_eq_cons_iff.1 htypes
  obtain ⟨⟨y, b⟩, _, rfl, hy, htypes⟩ := List.map_eq_cons_iff.1 htypes
  obtain rfl := List.map_eq_nil_iff.1 htypes
  obtain ⟨rfl, hxs⟩ := Prod.mk.inj hx
  obtain ⟨rfl, hb⟩ := Prod.mk.inj hy
  have htag {name : String} {var : Var} (hvar : (name, var) ∈ scope.vars)
      (htype : var.type ≠ .auto) : var.value.tag = var.type :=
    tag_value_eq_type_of_runFor assignsFromCall .empty {} 12 hscope hvar htype
  rw [hvars] at htag
  refine ⟨scope, xs, b, hscope, hvars, hxs, ?_, hb, ?_⟩
  · rw [← hxs]
    exact htag (.head _) (by rw [hxs]; decide)
  · rw [← hb]
    exact htag (.tail _ (.head _)) (by rw [hb]; decide)

end Scriptlet
