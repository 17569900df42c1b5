import Mathlib.Data.List.Basic
import Scriptlet.Proofs.Tree.Checked
import Scriptlet.Proofs.Tree.Valid

/-!
# The names a reader records

While a program is read, every open block has a list of the names bound in it. A declaration adds to
the innermost block. So does an assignment **outside functions** whose name no open block binds; in
the body of a function an assignment adds nothing, since the name may be one of the caller. As long
as nothing is undeclared, the blocks further out stay as they are, and a statement that has a block
of its own leaves all of them as they were.
-/

namespace Scriptlet

/-! ### Names in a tree -/

mutual

/-- Nothing is undeclared in a statement, also not in functions inside it. -/
def Stmt.keepsNames : Stmt → Bool
  | .ifElse _ body otherwise => keepsNamesAll body && keepsNamesAll otherwise
  | .whileLoop _ body | .function _ body | .block body => keepsNamesAll body
  | .unset _ => false
  | _ => true

/-- Nothing is undeclared in some statements. -/
def Stmt.keepsNamesAll : List Stmt → Bool
  | [] => true
  | s :: ss => s.keepsNames && keepsNamesAll ss

end

mutual

/-- The names declared in a statement, but not in functions inside it. -/
def Stmt.declared : Stmt → List String
  | .declare _ _ name _ => [name]
  | .ifElse _ body otherwise => declaredAll body ++ declaredAll otherwise
  | .whileLoop _ body | .block body => declaredAll body
  | _ => []

/-- The names declared in some statements. -/
def Stmt.declaredAll : List Stmt → List String
  | [] => []
  | s :: ss => s.declared ++ declaredAll ss

end

mutual

/-- The names that a statement assigns to, but not functions inside it. Stepping a variable and
assigning to an item are not assignments to its name. -/
def Stmt.assigned : Stmt → List String
  | .assign name _ => [name]
  | .ifElse _ body otherwise => assignedAll body ++ assignedAll otherwise
  | .whileLoop _ body | .block body => assignedAll body
  | _ => []

/-- The names that some statements assign to. -/
def Stmt.assignedAll : List Stmt → List String
  | [] => []
  | s :: ss => s.assigned ++ assignedAll ss

end

/-- No name is both assigned to and declared in a body. -/
def Stmt.Unmixed (body : List Stmt) : Prop :=
  ∀ name ∈ assignedAll body, name ∉ declaredAll body

instance (body : List Stmt) : Decidable (Stmt.Unmixed body) :=
  inferInstanceAs (Decidable (∀ name ∈ _, _))

/-! ### Names in a context -/

/-- A block binds just the names in its list. -/
theorem isSome_lookup_iff {α : Type} (bs : List (String × α)) (name : String) :
    (bs.lookup name).isSome ↔ name ∈ bs.map Prod.fst := by
  simp [List.lookup_isSome_iff]

namespace Context

variable {c c' : Context} {name : String}

/-- The names bound in the open blocks, the innermost block first, each in order of declaration. -/
def names (c : Context) : List (List String) :=
  c.blocks.map fun block ↦ (block.map Prod.fst).reverse

/-- A name is found if some open block binds it. -/
theorem isSome_lookup (c : Context) (name : String) :
    (c.lookup name).isSome ↔ name ∈ c.names.flatten := by
  simp [lookup, names, List.findSome?_isSome_iff]

theorem names_enterBlock (c : Context) : c.enterBlock.names = [] :: c.names :=
  rfl

theorem names_exitBlock (c : Context) : c.exitBlock.names = c.names.tail := by
  rw [names, exitBlock, List.map_tail, names]

/-- A function starts with its parameters in a block of its own. -/
theorem names_enterFunction (c : Context) (name : String) (isVoid : Bool) (params : List String) :
    (c.enterFunction name isVoid params).names = [params.reverse] := by
  simp [names, enterFunction, Function.comp_def]

/-- A declaration adds a new name to the innermost block. -/
theorem names_of_declare {b : Binding} (h : c.declare name b = .ok c') :
    c'.names = c.names.modifyHead (· ++ [name]) ∧ (∀ block ∈ c.names.head?, name ∉ block) ∧
      c'.place = c.place := by
  rw [declare] at h
  split at h
  · cases h
  · rename_i block blocks hblocks
    split at h <;> cases h
    rename_i hnew
    rw [isSome_lookup_iff] at hnew
    refine ⟨?_, ?_, rfl⟩
    · simp [names, hblocks]
    · simpa [names, hblocks] using hnew

/-- Outside functions an assignment adds a name that is bound nowhere. -/
theorem names_assigned (hplace : c.place = .top) (name : String) :
    (c.assigned name).names =
      if name ∈ c.names.flatten then c.names else c.names.modifyHead (· ++ [name]) := by
  rw [assigned]
  by_cases hbound : name ∈ c.names.flatten
  · rw [if_pos (.inr ((c.isSome_lookup name).2 hbound)), if_pos hbound]
  · have hnone : ¬(c.place ≠ .top ∨ (c.lookup name).isSome) := by
      rw [c.isSome_lookup]
      exact fun h ↦ h.elim (absurd hplace) hbound
    rw [if_neg hnone, if_neg hbound]
    split
    · rename_i hblocks
      simp [names, hblocks]
    · rename_i block blocks hblocks
      simp [names, hblocks]

/-- In the body of a function an assignment adds nothing. -/
theorem assigned_of_place_ne (hplace : c.place ≠ .top) (name : String) :
    c.assigned name = c :=
  if_pos (.inl hplace)

theorem place_assigned (c : Context) (name : String) : (c.assigned name).place = c.place := by
  rw [assigned]
  split
  · rfl
  · split <;> rfl

/-- The blocks are as before, but for names added to the innermost one. -/
structure Extends (c c' : Context) : Prop where
  place : c'.place = c.place
  tail : c'.names.tail = c.names.tail
  length : c'.names.length = c.names.length

namespace Extends

theorem refl (c : Context) : c.Extends c :=
  ⟨rfl, rfl, rfl⟩

theorem trans {c₁ : Context} (h : c.Extends c₁) (h' : c₁.Extends c') : c.Extends c' :=
  ⟨h'.place.trans h.place, h'.tail.trans h.tail, h'.length.trans h.length⟩

/-- With the same names nothing was added. -/
theorem of_names_eq (hplace : c'.place = c.place) (h : c'.names = c.names) : c.Extends c' :=
  ⟨hplace, congrArg List.tail h, congrArg List.length h⟩

/-- To change the innermost block leaves the others as they are. -/
theorem of_modifyHead {f : List String → List String} (hplace : c'.place = c.place)
    (h : c'.names = c.names.modifyHead f) : c.Extends c' :=
  ⟨hplace, by rw [h, List.tail_modifyHead], by rw [h, List.length_modifyHead]⟩

/-- Behind a block, the blocks around it are as before. -/
theorem names_exitBlock {c₁ : Context} (h : c.enterBlock.Extends c₁) :
    c₁.exitBlock.names = c.names := by
  rw [Context.names_exitBlock, h.tail, names_enterBlock, List.tail_cons]

/-- Assignment may add its name to the innermost block. -/
theorem assigned (c : Context) (name : String) : c.Extends (c.assigned name) := by
  by_cases hplace : c.place = .top
  · have hnames := names_assigned hplace name
    split at hnames
    · exact .of_names_eq (c.place_assigned name) hnames
    · exact .of_modifyHead (c.place_assigned name) hnames
  · rw [assigned_of_place_ne hplace]
    exact .refl c

end Extends

end Context

mutual

/-- What a statement adds goes to the innermost block, and a statement with a block of its own adds
nothing. -/
theorem Stmt.Checked.extends {c c' : Context} {s : Stmt} {loops : Nat} {place : Place}
    (hvalid : s.valid loops place = true) (hkeeps : s.keepsNames = true) :
    s.Checked c c' → c.Extends c' ∧ (s.isAlternative = true → c'.names = c.names)
  | .declare h => by
    obtain ⟨hnames, -, hplace⟩ := Context.names_of_declare h
    exact ⟨.of_modifyHead hplace hnames, nofun⟩
  | .assign _ => ⟨.assigned .., nofun⟩
  | .ifElse hbody h => by
    simp only [Stmt.valid, Bool.and_eq_true] at hvalid
    simp only [Stmt.keepsNames, Bool.and_eq_true] at hkeeps
    obtain ⟨hbody', -⟩ := Stmt.CheckedAll.extends hvalid.1.1 hkeeps.1 hbody
    obtain ⟨hplace, hnames⟩ := Stmt.CheckedAll.extends hvalid.1.2 hkeeps.2 h
    have heq := (hnames hvalid.2).trans hbody'.names_exitBlock
    exact ⟨.of_names_eq (hplace.place.trans hbody'.place) heq, fun _ ↦ heq⟩
  | .whileLoop hbody => by
    obtain ⟨hbody', -⟩ := Stmt.CheckedAll.extends hvalid hkeeps hbody
    exact ⟨.of_names_eq hbody'.place hbody'.names_exitBlock, nofun⟩
  | .function _ _ _ => ⟨.of_names_eq rfl rfl, nofun⟩
  | .block hbody => by
    obtain ⟨hbody', -⟩ := Stmt.CheckedAll.extends hvalid hkeeps hbody
    exact ⟨.of_names_eq hbody'.place hbody'.names_exitBlock, fun _ ↦ hbody'.names_exitBlock⟩
  | .unset _ => by cases hkeeps
  | .assignAt _ | .step _ | .breakLoop _ | .continueLoop _ | .giveBack _ | .exit | .uses | .eval =>
    ⟨.refl c, fun _ ↦ rfl⟩

/-- Statements that undeclare nothing add names to the innermost block only. -/
theorem Stmt.CheckedAll.extends {c c' : Context} {ss : List Stmt} {loops : Nat} {place : Place}
    (hvalid : Stmt.validAll loops place ss = true) (hkeeps : Stmt.keepsNamesAll ss = true) :
    Stmt.CheckedAll c ss c' →
      c.Extends c' ∧ (ss.all Stmt.isAlternative = true → c'.names = c.names)
  | .nil => ⟨.refl c, fun _ ↦ rfl⟩
  | .cons h hs => by
    simp only [Stmt.validAll, Bool.and_eq_true] at hvalid
    simp only [Stmt.keepsNamesAll, Bool.and_eq_true] at hkeeps
    obtain ⟨hext, hnames⟩ := h.extends hvalid.1 hkeeps.1
    obtain ⟨hext', hnames'⟩ := Stmt.CheckedAll.extends hvalid.2 hkeeps.2 hs
    refine ⟨hext.trans hext', fun hall ↦ ?_⟩
    rw [List.all_cons, Bool.and_eq_true] at hall
    exact (hnames' hall.2).trans (hnames hall.1)

end

end Scriptlet
