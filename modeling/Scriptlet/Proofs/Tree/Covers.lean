import Mathlib.Data.List.Basic
import Mathlib.Data.List.Forall2
import Scriptlet.Proofs.Tree.Checked
import Scriptlet.Proofs.Tree.Valid

/-!
# What covers a constant

A variable may have the name of a constant of a block further out. As long as it is there, it
**covers** the constant: an assignment or a `del` of the name means the variable. The reader checks
each of them once, against the blocks that are open in the text.

Of a block, only three things matter about a name: it is a constant, it covers one, or neither. The
list of these for the open blocks is the `cover` of the name. Going on in the text never makes a
constant of something else, and never covers a constant that was bare, except in the innermost
block. It may well uncover one, by a `del`. In a loop that would be wrong, since the next time
around the `del` would come to the constant. `Unset.uncovers` says of a `del` that it is of this
kind, and without such a `del` a loop leaves the cover as it was.
-/

namespace Scriptlet

/-! ### What is known behind statements -/

mutual

/-- What is known behind a statement that passes its checks. -/
def Stmt.behind (c : Context) : Stmt → Context
  | .declare isConst _ name _ =>
    match c.declare name (if isConst then .constant else .mutable) with
    | .ok c' => c'
    | .error _ => c
  | .assign name _ => c.assigned name
  | .ifElse _ body otherwise => behindAll (behindAll c.enterBlock body).exitBlock otherwise
  | .whileLoop _ body => (behindAll c.enterLoop.enterBlock body).exitBlock.exitLoop
  | .function head body =>
    c.exitFunction (behindAll (c.enterFunction head.name (head.returns == .void) head.params) body)
  | .unset name => c.forget name
  | .block body => (behindAll c.enterBlock body).exitBlock
  | _ => c

/-- What is known behind some statements. -/
def Stmt.behindAll (c : Context) : List Stmt → Context
  | [] => c
  | s :: ss => behindAll (s.behind c) ss

end

mutual

/-- What is known behind a statement can be computed. -/
theorem Stmt.Checked.behind_eq {c c' : Context} {s : Stmt} : s.Checked c c' → s.behind c = c'
  | .declare h => by rw [Stmt.behind, h]
  | .ifElse hbody h => by rw [Stmt.behind, hbody.behindAll_eq, h.behindAll_eq]
  | .whileLoop hbody => by rw [Stmt.behind, hbody.behindAll_eq]
  | .function _ _ hbody => by rw [Stmt.behind, hbody.behindAll_eq]
  | .block hbody => by rw [Stmt.behind, hbody.behindAll_eq]
  | .assign _ | .assignAt _ | .step _ | .breakLoop _ | .continueLoop _ | .giveBack _ | .exit
  | .unset _ | .uses | .eval => rfl

theorem Stmt.CheckedAll.behindAll_eq {c c' : Context} {ss : List Stmt} :
    Stmt.CheckedAll c ss c' → Stmt.behindAll c ss = c'
  | .nil => rfl
  | .cons h hs => by rw [Stmt.behindAll, h.behind_eq, hs.behindAll_eq]

end

/-- A `del`, with what is known at it. -/
structure Unset where
  name : String
  context : Context
  /-- How many of the open blocks are inside the innermost loop around it, if it is in a loop. -/
  inner : Option Nat

/-- In a loop, the `del` means a name from outside the loop, of which there is also a constant. -/
def Unset.uncovers (u : Unset) : Bool :=
  u.inner.any fun count ↦
    (u.context.blocks.take count).all (fun block ↦ (block.lookup u.name).isNone) &&
      u.context.blocks.any fun block ↦ block.lookup u.name == some .constant

mutual

/-- Every `del` in a statement. -/
def Stmt.unsets (c : Context) (inner : Option Nat) : Stmt → List Unset
  | .ifElse _ body otherwise =>
    unsetsAll c.enterBlock (inner.map (· + 1)) body ++
      unsetsAll (behindAll c.enterBlock body).exitBlock inner otherwise
  | .whileLoop _ body => unsetsAll c.enterLoop.enterBlock (some 1) body
  | .function head body =>
    unsetsAll (c.enterFunction head.name (head.returns == .void) head.params) none body
  | .unset name => [⟨name, c, inner⟩]
  | .block body => unsetsAll c.enterBlock (inner.map (· + 1)) body
  | _ => []

/-- Every `del` in some statements. -/
def Stmt.unsetsAll (c : Context) (inner : Option Nat) : List Stmt → List Unset
  | [] => []
  | s :: ss => s.unsets c inner ++ unsetsAll (s.behind c) inner ss

end

/-- Every `del` in a program, in the order of the text. -/
def Program.unsets (p : Program) : List Unset :=
  Stmt.unsetsAll .start none p

/-! ### Covers -/

/-- What matters about a name in the open blocks, the innermost first: it is a constant, or it is a
variable that covers one. -/
abbrev Cover := List (Option Binding)

namespace Cover

variable {bs : List (Option Binding)} {k k' k'' : Cover}

/-- The cover of a name that is bound so in the open blocks. A variable that covers no constant does
not matter. -/
def ofBindings : List (Option Binding) → Cover
  | [] => []
  | b :: bs =>
    (if b = some .mutable ∧ some .constant ∉ bs then none else b) :: ofBindings bs

/-- Without the innermost binding. -/
def forget : List (Option Binding) → List (Option Binding)
  | [] => []
  | none :: bs => none :: forget bs
  | some _ :: bs => none :: bs

/-- The innermost binding. -/
def first? (bs : List (Option Binding)) : Option Binding :=
  bs.findSome? id

/-- A block without the name does not matter for its cover. -/
@[simp]
theorem ofBindings_none (bs : List (Option Binding)) :
    ofBindings (none :: bs) = none :: ofBindings bs := by
  simp [ofBindings]

/-- The cover in the outer blocks does not depend on the inner ones. -/
theorem tail_ofBindings (bs : List (Option Binding)) :
    (ofBindings bs).tail = ofBindings bs.tail := by
  cases bs <;> rfl

theorem drop_ofBindings (bs : List (Option Binding)) (count : Nat) :
    (ofBindings bs).drop count = ofBindings (bs.drop count) := by
  induction count generalizing bs with
  | zero => rfl
  | succ count ih => rw [← List.drop_tail, tail_ofBindings, ih, List.drop_tail]

/-- There is one entry for each block. -/
@[simp]
theorem length_ofBindings (bs : List (Option Binding)) : (ofBindings bs).length = bs.length := by
  induction bs with
  | nil => rfl
  | cons b bs ih => rw [ofBindings, List.length_cons, ih, List.length_cons]

/-- Without constants there is nothing to cover. -/
theorem ofBindings_eq_replicate (h : some .constant ∉ bs) :
    ofBindings bs = List.replicate bs.length none := by
  induction bs with
  | nil => rfl
  | cons b bs ih =>
    rw [List.mem_cons, not_or] at h
    have hb : (if b = some .mutable ∧ some .constant ∉ bs then none else b) = none := by
      rcases b with - | (- | -)
      · simp
      · simp [h.2]
      · exact absurd rfl h.1
    rw [ofBindings, hb, ih h.2, List.length_cons, List.replicate_succ]

theorem forget_replicate (count : Nat) :
    forget (List.replicate count none) = List.replicate count none := by
  induction count with
  | zero => rfl
  | succ count ih => rw [List.replicate_succ, forget, ih]

/-- A name that is bound nowhere has no innermost binding. -/
theorem first?_replicate (count : Nat) : first? (List.replicate count none) = none := by
  simp [first?]

/-- The innermost binding is not a constant, so its cover is not either. -/
theorem first?_ofBindings_ne (h : first? bs ≠ some .constant) :
    first? (ofBindings bs) ≠ some .constant := by
  induction bs with
  | nil => exact h
  | cons b bs ih =>
    rcases b with - | (- | -)
    · rw [ofBindings_none]
      exact ih h
    · by_cases hmem : some .constant ∈ bs
      · simp [ofBindings, hmem, first?]
      · have hnone : ofBindings (some .mutable :: bs) = none :: ofBindings bs := by
          simp [ofBindings, hmem]
        rw [hnone, ofBindings_eq_replicate hmem, ← List.replicate_succ, first?_replicate]
        simp
    · exact absurd rfl h

/-- Forgetting a binding that is not a constant uncovers what it covers. -/
theorem ofBindings_forget (h : first? bs ≠ some .constant) :
    ofBindings (forget bs) = forget (ofBindings bs) := by
  induction bs with
  | nil => rfl
  | cons b bs ih =>
    rcases b with - | (- | -)
    · rw [forget, ofBindings_none, ih h, ofBindings_none, forget]
    · rw [forget, ofBindings_none]
      by_cases hmem : some .constant ∈ bs
      · simp [ofBindings, hmem, forget]
      · have hnone : ofBindings (some .mutable :: bs) = none :: ofBindings bs := by
          simp [ofBindings, hmem]
        rw [hnone, forget, ofBindings_eq_replicate hmem, forget_replicate]
    · exact absurd rfl h

/-- Forgetting changes nothing behind the blocks that bind the name first. -/
theorem drop_forget {count : Nat} (h : ∃ b ∈ bs.take count, b.isSome) :
    (forget bs).drop count = bs.drop count := by
  induction bs generalizing count with
  | nil => rfl
  | cons b bs ih =>
    cases count with
    | zero =>
      obtain ⟨b', hmem, -⟩ := h
      cases hmem
    | succ count =>
      rcases b with - | b
      · rw [forget, List.drop_succ_cons, List.drop_succ_cons]
        simp only [List.take_succ_cons, List.mem_cons] at h
        obtain ⟨b', rfl | hmem, hsome⟩ := h
        · cases hsome
        · exact ih ⟨b', hmem, hsome⟩
      · rw [forget, List.drop_succ_cons, List.drop_succ_cons]

/-- Constants stay as they are, and some are uncovered. -/
def Fades : Cover → Cover → Prop :=
  List.Forall₂ fun b b' ↦ b' = b ∨ b = some .mutable ∧ b' = none

namespace Fades

theorem refl (k : Cover) : k.Fades k :=
  List.forall₂_same.2 fun _ _ ↦ .inl rfl

theorem of_eq (h : k' = k) : k.Fades k' := by
  subst h
  exact .refl k'

theorem trans (h : k.Fades k') (h' : k'.Fades k'') : k.Fades k'' := by
  induction h generalizing k'' with
  | nil => exact h'
  | cons hb _ ih =>
    cases h' with
    | cons hb' h' =>
      refine .cons ?_ (ih h')
      rcases hb with rfl | ⟨rfl, rfl⟩
      · exact hb'
      · rcases hb' with rfl | ⟨hb', -⟩
        · exact .inr ⟨rfl, rfl⟩
        · cases hb'

theorem tail (h : k.Fades k') : Fades k.tail k'.tail := by
  cases h with
  | nil => exact .nil
  | cons _ h => exact h

theorem length_eq (h : k.Fades k') : k'.length = k.length :=
  (List.Forall₂.length_eq h).symm

end Fades

/-- What is forgotten is not a constant. -/
theorem fades_forget (h : first? k ≠ some .constant) : k.Fades (forget k) := by
  induction k with
  | nil => exact .nil
  | cons b k ih =>
    rcases b with - | (- | -)
    · exact .cons (.inl rfl) (ih h)
    · exact .cons (.inr ⟨rfl, rfl⟩) (Fades.refl k)
    · exact absurd rfl h

end Cover

/-! ### Covers in a context -/

namespace Context

variable {c c' : Context} {name x : String}

/-- How a name is bound in each open block. -/
def bindings (c : Context) (x : String) : List (Option Binding) :=
  c.blocks.map fun block ↦ block.lookup x

/-- The cover of a name in the open blocks. -/
def cover (c : Context) (x : String) : Cover :=
  .ofBindings (c.bindings x)

theorem length_cover (c : Context) (x : String) : (c.cover x).length = c.blocks.length := by
  rw [cover, Cover.length_ofBindings, bindings, List.length_map]

/-- A lookup finds the innermost binding. -/
theorem first?_bindings (c : Context) (x : String) : Cover.first? (c.bindings x) = c.lookup x := by
  rw [bindings, Cover.first?, lookup, List.findSome?_map]
  rfl

/-- Constants are not assignable. -/
theorem lookup_ne_of_assignable (h : c.assignable name = .ok ()) :
    c.lookup name ≠ some .constant := by
  intro hconst
  rw [assignable, if_pos hconst] at h
  cases h

/-- A name that may be assigned to is covered if it is a constant somewhere. -/
theorem first?_cover_ne (h : c.assignable x = .ok ()) :
    Cover.first? (c.cover x) ≠ some .constant := by
  refine Cover.first?_ofBindings_ne ?_
  rw [first?_bindings]
  exact lookup_ne_of_assignable h

/-- A new block binds nothing. -/
theorem cover_enterBlock (c : Context) (x : String) : c.enterBlock.cover x = none :: c.cover x :=
  Cover.ofBindings_none _

/-- A block is left with all it binds. -/
theorem cover_exitBlock (c : Context) (x : String) : c.exitBlock.cover x = (c.cover x).tail := by
  rw [cover, cover, Cover.tail_ofBindings, bindings, bindings, exitBlock, List.map_tail]

/-- Behind a block that left some of the blocks outside it as they were. -/
theorem drop_cover_exitBlock {count : Nat}
    (h : (c'.cover x).drop (count + 1) = (c.enterBlock.cover x).drop (count + 1)) :
    (c'.exitBlock.cover x).drop count = (c.cover x).drop count := by
  rw [cover_exitBlock, List.drop_tail, h, cover_enterBlock, List.drop_succ_cons]

theorem lookup_cons_of_ne {b : Binding} (block : Block) (h : name ≠ x) :
    List.lookup x ((name, b) :: block) = block.lookup x := by
  rw [List.lookup_cons, beq_false_of_ne h.symm]

/-- Declaring another name does not matter. -/
theorem cover_declare_of_ne {b : Binding} (h : c.declare name b = .ok c') (hne : name ≠ x) :
    c'.cover x = c.cover x := by
  rw [declare] at h
  split at h
  · cases h
  · rename_i block blocks hblocks
    split at h <;> cases h
    rw [cover, cover, bindings, bindings, hblocks, List.map_cons, List.map_cons,
      lookup_cons_of_ne block hne]

/-- Declaring the name binds it in the innermost block, which did not bind it. -/
theorem cover_declare {b : Binding} (h : c.declare x b = .ok c') :
    (c.cover x).head? = some none ∧ ∃ b', c'.cover x = b' :: (c.cover x).tail ∧
      (b = .constant → b' = some .constant) := by
  rw [declare] at h
  split at h
  · cases h
  · rename_i block blocks hblocks
    split at h <;> cases h
    rename_i hfree
    have hnone : block.lookup x = none := Option.not_isSome_iff_eq_none.1 hfree
    have hcover : c.cover x = none :: Cover.ofBindings (blocks.map fun block ↦ block.lookup x) := by
      rw [cover, bindings, hblocks, List.map_cons, hnone, Cover.ofBindings_none]
    rw [hcover, cover, bindings, List.map_cons, List.lookup_cons_self, Cover.ofBindings]
    refine ⟨rfl, _, rfl, fun hb ↦ ?_⟩
    rw [hb, if_neg (by simp)]

/-- Assigning to a name does not matter: it is bound already, or it is no constant anywhere. -/
theorem cover_assigned (c : Context) (name x : String) :
    (c.assigned name).cover x = c.cover x := by
  rw [assigned]
  split
  · rfl
  · rename_i hfree
    split
    · rfl
    · rename_i block blocks hblocks
      rw [cover, cover, bindings, bindings, hblocks, List.map_cons, List.map_cons]
      -- A name that is declared so was bound nowhere, so it covers nothing.
      by_cases hne : name = x
      · subst hne
        rw [not_or, Option.not_isSome_iff_eq_none, lookup, List.findSome?_eq_none_iff] at hfree
        have hnone : ∀ block ∈ c.blocks, block.lookup name = none := hfree.2
        rw [hblocks, List.forall_mem_cons] at hnone
        have hconst : some Binding.constant ∉ blocks.map fun block ↦ block.lookup name := by
          rw [List.mem_map]
          rintro ⟨block, hblock, heq⟩
          rw [hnone.2 block hblock] at heq
          cases heq
        rw [List.lookup_cons_self, hnone.1, Cover.ofBindings_none, Cover.ofBindings,
          if_pos ⟨rfl, hconst⟩]
      · rw [lookup_cons_of_ne block hne]

theorem lookup_filter_of_ne (block : Block) (h : name ≠ x) :
    (block.filter fun b ↦ b.1 != name).lookup x = block.lookup x := by
  induction block with
  | nil => rfl
  | cons b block ih =>
    obtain ⟨n, b⟩ := b
    by_cases hn : n = name
    · subst hn
      rw [List.filter_cons_of_neg (by simp), ih, lookup_cons_of_ne block h]
    · rw [List.filter_cons_of_pos (by simpa using hn), List.lookup_cons, List.lookup_cons, ih]

/-- A name that is taken out is not found. -/
theorem lookup_filter_self (block : Block) (name : String) :
    (block.filter fun b ↦ b.1 != name).lookup name = none := by
  rw [List.lookup_eq_none_iff]
  intro b hb
  have hne := (List.mem_filter.1 hb).2
  rwa [bne_comm] at hne

/-- To forget a name leaves the others alone. -/
theorem bindings_forget_of_ne (c : Context) (hne : name ≠ x) :
    (c.forget name).bindings x = c.bindings x := by
  rw [bindings, bindings, forget]
  show (forgetIn name c.blocks).map _ = _
  induction c.blocks with
  | nil => rfl
  | cons block blocks ih =>
    rw [forgetIn]
    split
    · rw [List.map_cons, lookup_filter_of_ne block hne, List.map_cons]
    · rw [List.map_cons, ih, List.map_cons]

/-- To forget a name takes its innermost binding away. -/
theorem bindings_forget (c : Context) (x : String) :
    (c.forget x).bindings x = Cover.forget (c.bindings x) := by
  rw [bindings, bindings, forget]
  show (forgetIn x c.blocks).map _ = _
  induction c.blocks with
  | nil => rfl
  | cons block blocks ih =>
    rw [forgetIn, List.map_cons]
    rcases hbound : block.lookup x with - | b
    · rw [if_neg (by simp), List.map_cons, hbound, Cover.forget, ih]
    · rw [if_pos (by simp), List.map_cons, lookup_filter_self, Cover.forget]

theorem cover_forget_of_ne (c : Context) (hne : name ≠ x) :
    (c.forget name).cover x = c.cover x := by
  rw [cover, bindings_forget_of_ne c hne, cover]

/-- A name that can be assigned to does not mean a constant, so no constant is forgotten. -/
theorem cover_forget (h : c.assignable x = .ok ()) :
    (c.forget x).cover x = Cover.forget (c.cover x) := by
  rw [cover, bindings_forget, Cover.ofBindings_forget, cover]
  rw [first?_bindings]
  exact lookup_ne_of_assignable h

end Context

/-- A `del` that uncovers nothing from outside the loop leaves the cover outside it as it was. -/
theorem Unset.drop_cover_forget {c : Context} {x : String} {count : Nat}
    (h : (Unset.mk x c (some count)).uncovers = false) (hassign : c.assignable x = .ok ()) :
    ((c.forget x).cover x).drop count = (c.cover x).drop count := by
  by_cases hconst : some Binding.constant ∈ c.bindings x
  · have hbound : ∃ b ∈ (c.bindings x).take count, b.isSome := by
      obtain ⟨block, hblock, heq⟩ := List.mem_map.1 hconst
      have hany : (c.blocks.any fun block ↦ block.lookup x == some .constant) = true :=
        List.any_eq_true.2 ⟨block, hblock, by simp [heq]⟩
      simp only [uncovers, Option.any_some, hany, Bool.and_true] at h
      obtain ⟨block', hblock', hsome⟩ := List.all_eq_false.1 h
      refine ⟨block'.lookup x, ?_, by simpa [Option.isSome_iff_ne_none] using hsome⟩
      rw [Context.bindings, ← List.map_take]
      exact List.mem_map_of_mem hblock'
    rw [Context.cover, Context.bindings_forget, Cover.drop_ofBindings, Cover.drop_forget hbound,
      ← Cover.drop_ofBindings, ← Context.cover]
  · rw [Context.cover_forget hassign, Context.cover, Cover.ofBindings_eq_replicate hconst,
      Cover.forget_replicate]

/-! ### Going on in the text -/

/-- What is known has gone on, in the same blocks: outside the innermost one, constants stay as they
are, and some are uncovered. -/
structure Context.Advances (x : String) (c c' : Context) : Prop where
  length : c'.blocks.length = c.blocks.length
  fades : Cover.Fades (c.cover x).tail (c'.cover x).tail

namespace Context.Advances

variable {x : String} {c c₁ c' : Context}

theorem of_fades (h : (c.cover x).Fades (c'.cover x)) : c.Advances x c' :=
  ⟨by rw [← c'.length_cover x, h.length_eq, c.length_cover], h.tail⟩

theorem refl (c : Context) : c.Advances x c :=
  .of_fades (.refl _)

theorem trans (h : c.Advances x c₁) (h' : c₁.Advances x c') : c.Advances x c' :=
  ⟨h'.length.trans h.length, h.fades.trans h'.fades⟩

/-- Behind a block, constants are uncovered at most. -/
theorem fades_exitBlock (h : c.enterBlock.Advances x c₁) :
    (c.cover x).Fades (c₁.exitBlock.cover x) := by
  have hfades := h.fades
  rwa [cover_enterBlock, List.tail_cons, ← cover_exitBlock] at hfades

/-- A declaration changes the innermost block only. -/
theorem declare {name : String} {b : Binding} (h : c.declare name b = .ok c') :
    c.Advances x c' := by
  by_cases hne : name = x
  · subst hne
    obtain ⟨hhead, b, hcover, -⟩ := cover_declare h
    obtain ⟨k, hk⟩ : ∃ k, c.cover name = none :: k := by
      rcases hk : c.cover name with - | ⟨b, k⟩
      · rw [hk] at hhead
        cases hhead
      · rw [hk] at hhead
        cases hhead
        exact ⟨k, rfl⟩
    refine ⟨?_, ?_⟩
    · rw [← c'.length_cover name, hcover, ← c.length_cover name, hk]
      rfl
    · rw [hcover, List.tail_cons]
      exact .refl _
  · exact .of_fades (.of_eq (cover_declare_of_ne h hne))

end Context.Advances

/-- To forget a name uncovers what it covers. -/
theorem Context.fades_forget {c : Context} {name : String} (x : String)
    (h : c.assignable name = .ok ()) : (c.cover x).Fades ((c.forget name).cover x) := by
  by_cases hne : name = x
  · subst hne
    rw [cover_forget h]
    exact Cover.fades_forget (first?_cover_ne h)
  · exact .of_eq (c.cover_forget_of_ne hne)

mutual

/-- A statement that has blocks of its own does not bind anything outside them. -/
theorem Stmt.Checked.advances {c c' : Context} {s : Stmt} (x : String) {loops : Nat} {place : Place}
    (hvalid : s.valid loops place = true) :
    s.Checked c c' →
      c.Advances x c' ∧ (s.isAlternative = true → (c.cover x).Fades (c'.cover x))
  | .declare h => ⟨.declare h, nofun⟩
  | .assign _ => ⟨.of_fades (.of_eq (Context.cover_assigned ..)), nofun⟩
  | .ifElse hbody h => by
    rw [Stmt.valid, Bool.and_eq_true, Bool.and_eq_true] at hvalid
    obtain ⟨hbody', -⟩ := Stmt.CheckedAll.advances x hvalid.1.1 hbody
    obtain ⟨-, halternative⟩ := Stmt.CheckedAll.advances x hvalid.1.2 h
    have hfades := hbody'.fades_exitBlock.trans (halternative hvalid.2)
    exact ⟨.of_fades hfades, fun _ ↦ hfades⟩
  | .whileLoop hbody => by
    obtain ⟨hbody', -⟩ := Stmt.CheckedAll.advances x hvalid hbody
    exact ⟨.of_fades hbody'.fades_exitBlock, nofun⟩
  | .function _ _ _ => ⟨.of_fades (.refl _), nofun⟩
  | .block hbody => by
    obtain ⟨hbody', -⟩ := Stmt.CheckedAll.advances x hvalid hbody
    exact ⟨.of_fades hbody'.fades_exitBlock, fun _ ↦ hbody'.fades_exitBlock⟩
  | .unset h => ⟨.of_fades (Context.fades_forget x h), nofun⟩
  | .assignAt _ | .step _ | .breakLoop _ | .continueLoop _ | .giveBack _ | .exit | .uses | .eval =>
    ⟨.refl c, fun _ ↦ .refl _⟩

/-- Statements that pass their checks go on so, one after the other. -/
theorem Stmt.CheckedAll.advances {c c' : Context} {ss : List Stmt} (x : String) {loops : Nat}
    {place : Place} (hvalid : Stmt.validAll loops place ss = true) :
    Stmt.CheckedAll c ss c' →
      c.Advances x c' ∧ (ss.all Stmt.isAlternative = true → (c.cover x).Fades (c'.cover x))
  | .nil => ⟨.refl c, fun _ ↦ .refl _⟩
  | .cons h hs => by
    rw [Stmt.validAll, Bool.and_eq_true] at hvalid
    obtain ⟨hadvances, hfades⟩ := h.advances x hvalid.1
    obtain ⟨hadvances', hfades'⟩ := Stmt.CheckedAll.advances x hvalid.2 hs
    refine ⟨hadvances.trans hadvances', fun hall ↦ ?_⟩
    rw [List.all_cons, Bool.and_eq_true] at hall
    exact (hfades hall.1).trans (hfades' hall.2)

end

/-! ### Going on in a loop -/

/-- No `del` of the name is of the kind that uncovers a constant of it from outside a loop. -/
def Unset.Spare (us : List Unset) (x : String) : Prop :=
  ∀ u ∈ us, u.name = x → u.uncovers = false

/-- The condition is one on each `del`. -/
theorem Unset.spare_append {us us' : List Unset} {x : String} :
    Unset.Spare (us ++ us') x ↔ Unset.Spare us x ∧ Unset.Spare us' x :=
  List.forall_mem_append

mutual

/-- Inside a loop, what is outside it stays covered, if no `del` uncovers it. -/
theorem Stmt.Checked.drop_cover {c c' : Context} {s : Stmt} {x : String} {count : Nat}
    (hcount : 1 ≤ count) (hspare : Unset.Spare (s.unsets c (some count)) x) :
    s.Checked c c' → (c'.cover x).drop count = (c.cover x).drop count
  | @Stmt.Checked.declare _ _ _ _ name _ h => by
    by_cases hne : name = x
    · subst hne
      obtain ⟨-, b, hcover, -⟩ := Context.cover_declare h
      obtain ⟨n, rfl⟩ : ∃ n, count = n + 1 := ⟨count - 1, by omega⟩
      rw [hcover, List.drop_succ_cons, List.drop_tail]
    · rw [Context.cover_declare_of_ne h hne]
  | .assign _ => by rw [Context.cover_assigned]
  | .ifElse hbody h => by
    rw [Stmt.unsets, Unset.spare_append, hbody.behindAll_eq] at hspare
    have hdrop := Stmt.CheckedAll.drop_cover (Nat.le_add_left 1 count) hspare.1 hbody
    rw [Stmt.CheckedAll.drop_cover hcount hspare.2 h, Context.drop_cover_exitBlock hdrop]
  | .whileLoop hbody => by
    have hback := Stmt.CheckedAll.drop_cover (Nat.le_refl 1) hspare hbody
    exact congrArg (List.drop count) (Context.drop_cover_exitBlock hback)
  | .function _ _ _ => rfl
  | .block hbody => by
    exact Context.drop_cover_exitBlock
      (Stmt.CheckedAll.drop_cover (Nat.le_add_left 1 count) hspare hbody)
  | @Stmt.Checked.unset _ name h => by
    by_cases hne : name = x
    · subst hne
      exact Unset.drop_cover_forget (hspare _ (List.mem_singleton.2 rfl) rfl) h
    · rw [Context.cover_forget_of_ne _ hne]
  | .assignAt _ | .step _ | .breakLoop _ | .continueLoop _ | .giveBack _ | .exit | .uses | .eval =>
    rfl

/-- **In a loop, the cover outside the loop stays as it is**, if nothing is uncovered there. -/
theorem Stmt.CheckedAll.drop_cover {c c' : Context} {ss : List Stmt} {x : String} {count : Nat}
    (hcount : 1 ≤ count) (hspare : Unset.Spare (Stmt.unsetsAll c (some count) ss) x) :
    Stmt.CheckedAll c ss c' → (c'.cover x).drop count = (c.cover x).drop count
  | .nil => rfl
  | .cons h hs => by
    rw [Stmt.unsetsAll, Unset.spare_append, h.behind_eq] at hspare
    rw [Stmt.CheckedAll.drop_cover hcount hspare.2 hs, h.drop_cover hcount hspare.1]

end

end Scriptlet
